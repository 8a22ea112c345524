import Orchestration.Proofs.Evaluation
import Orchestration.Proofs.Json.Reading
import Orchestration.Proofs.Text.Trimming

namespace Orchestration

/-- A value that says which item to select: an integer, or a numeral of one with blanks around it. -/
inductive Value.IsSelector : Value → Int64 → Prop
  | integer (i : Int64) : IsSelector (.integer i) i
  | text {s : String} {i : Int64} : Text.DenotesPadded s.toList i.toInt → IsSelector (.text s) i

namespace Collection

variable {items : List Value} {v : Value} {function : String} {n : Nat}

theorem index?_eq_some_iff {j : Int} : index? v = some j ↔ ∃ i, v.IsSelector i ∧ i.toInt = j := by
  constructor
  · intro h
    cases v with
    | scalar scalar =>
      cases scalar with
      | integer i =>
        cases h
        exact ⟨i, .integer i, rfl⟩
      | text s =>
        obtain ⟨i, hi, rfl⟩ := Option.map_eq_some_iff.1 h
        exact ⟨i, .text (Text.signed?_trim_eq_some_iff.1 hi), rfl⟩
      | _ => cases h
    | _ => cases h
  · rintro ⟨i, hi, rfl⟩
    cases hi with
    | integer => rfl
    | text hs => exact congrArg (Option.map Int64.toInt) (Text.signed?_trim_eq_some_iff.2 hs)

theorem item_of_nonneg (h : n < items.length) : item items n = items[n] := by
  simp [item, h, Int.not_lt.2 (Int.natCast_nonneg n)]

theorem item_of_neg (h : n < items.length) :
    item items ((n : Int) - items.length) = items[n] := by
  have hneg : (n : Int) - items.length < 0 := by omega
  have hcount : items.length + ((n : Int) - items.length) = n := by omega
  rw [item, if_pos hneg, hcount]
  simp [h, Int.not_lt.2 (Int.natCast_nonneg n)]

theorem item_of_outside {i : Int} (h : i < -(items.length : Int) ∨ (items.length : Int) ≤ i) :
    item items i = .text "" := by
  rw [item]
  split
  · rw [if_pos (by omega)]
  · rw [List.getElem?_eq_none (by omega)]
    rfl

theorem select_list : select function v (.list items) =
    (index? v).elim (fault (.call function .listIndex)) fun i => .ok (item items i) := by
  simp only [select, decoded, pure_bind]
  cases index? v <;> rfl

theorem select_of_isSelector {i : Int64} (hv : v.IsSelector i) :
    select function v (.list items) = .ok (item items i.toInt) := by
  rw [select_list, index?_eq_some_iff.2 ⟨i, hv, rfl⟩]
  rfl

theorem select_of_not_isSelector (h : ∀ i, ¬v.IsSelector i) :
    select function v (.list items) = fault (.call function .listIndex) := by
  have hindex : index? v = none := by
    refine Option.eq_none_iff_forall_not_mem.2 fun j hj => ?_
    obtain ⟨i, hi, -⟩ := index?_eq_some_iff.1 hj
    exact h i hi
  rw [select_list, hindex]
  rfl

theorem select_text {s : String} (h : Json.read? .data s = some (.list items)) :
    select function v (.text s) = select function v (.list items) := by
  rw [select, decoded, h]
  rfl

end Collection

namespace Stack

open Evaluation (Site operand arguments)

variable {stack : Stack} {c : Call} {args : Snippet} {v w : Value} {items : List Value}

structure Selects (stack : Stack) (c : Call) (args : Snippet) (index collection : Value) : Prop where
  own : c.stack = stack.id
  isSelect : c.fn = .select
  args : ∃ i source, args = .list [i, source] ∧ stack.value i = .ok index ∧
    stack.value source = .ok collection

theorem value_select (h : stack.Selects c args v w) :
    stack.value (.call c args) = Collection.select c.name v w := by
  obtain ⟨hown, hfn, i, source, rfl, hindex, hcollection⟩ := h
  rw [value_own hown, hfn, Site.value, Site.select, arguments_items]
  simp only [List.map_cons, List.map_nil]
  rw [operand_bind_run hindex, operand_bind_run hcollection]
  rfl

/-- An index selects the item that it counts from the start of a list or, if it is negative, from
its end, and the empty text if there is none. What is no index fails, and a list that is given as
JSON text is selected from as the list itself. -/
theorem selecting_counts_items (h : stack.Selects c args v (.list items)) :
    (∀ i : Int64, v.IsSelector i →
      (∀ (n : Nat) (hn : n < items.length), i.toInt = n ∨ i.toInt = n - items.length →
        stack.value (.call c args) = .ok items[n]) ∧
      (i.toInt < -items.length ∨ items.length ≤ i.toInt →
        stack.value (.call c args) = .ok (.text ""))) ∧
    ((∀ i, ¬v.IsSelector i) → stack.value (.call c args) = fault (.call c.name .listIndex)) ∧
    ∀ c' args' s, c'.name = c.name → stack.Selects c' args' v (.text s) →
      (Json.read? .data s = some (.list items) ∨
        ∃ n ≤ 127, (Value.list items).Portable n ∧ s = (Value.list items).json) →
      stack.value (.call c' args') = stack.value (.call c args) := by
  refine ⟨fun i hv => ?_, fun hv => ?_, fun c' args' s hname h' hs => ?_⟩
  · rw [value_select h, Collection.select_of_isSelector hv]
    refine ⟨fun n hn hi => ?_, fun hi => by rw [Collection.item_of_outside hi]⟩
    obtain hi | hi := hi
    · rw [hi, Collection.item_of_nonneg hn]
    · rw [hi, Collection.item_of_neg hn]
  · rw [value_select h, Collection.select_of_not_isSelector hv]
  · have hread : Json.read? .data s = some (.list items) := by
      obtain hread | ⟨n, hn, hportable, rfl⟩ := hs
      · exact hread
      · exact Json.read?_json hportable hn
    rw [value_select h', value_select h, hname, Collection.select_text hread]

theorem selecting_counts_items_of_last :
    let select (index collection : Value) : Value :=
      .map [("Fn::Select", .list [index, collection])]
    let items : List Value := [.integer 7, .text "b"]
    ∃ t stack c args c₁ args₁ c₂ args₂ c₃ args₃,
      Template.ofValue (.map [("heat_template_version", .text "2017-09-01")]) = .ok t ∧
      make ⟨"s"⟩ "s" t [] (StaticResources.toResources []) = .ok stack ∧
      t.snippet .ordinary stack.id (select (.text " -1\n") (.list items)) = .ok (.call c args) ∧
      t.snippet .ordinary stack.id (select (.text " -1\n") (.text (Value.list items).json)) =
        .ok (.call c₁ args₁) ∧
      t.snippet .ordinary stack.id (select (.integer Int64.minValue) (.list items)) =
        .ok (.call c₂ args₂) ∧
      t.snippet .ordinary stack.id (select (.bool true) (.list items)) = .ok (.call c₃ args₃) ∧
      stack.value (.call c args) = .ok (.text "b") ∧
      stack.value (.call c₁ args₁) = .ok (.text "b") ∧
      stack.value (.call c₂ args₂) = .ok (.text "") ∧
      stack.value (.call c₃ args₃) = fault (.call "Fn::Select" .listIndex) := by
  intro select items
  have hlast : Value.IsSelector (.text " -1\n") (-1) :=
    .text ⟨[' '], ['-', '1'], ['\n'], by decide, by decide, .minus (Text.denotes_toDigits 1), rfl⟩
  have hportable : (Value.list items).Portable 1 :=
    .list (List.forall_mem_cons.2 ⟨.scalar nofun, List.forall_mem_singleton.2 (.scalar nofun)⟩)
  have hvalues {stack : Stack} {c c₁ c₂ c₃ : Call} {args args₁ args₂ args₃ : Snippet}
      (h : stack.Selects c args (.text " -1\n") (.list items))
      (h₁ : stack.Selects c₁ args₁ (.text " -1\n") (.text (Value.list items).json))
      (hname : c₁.name = c.name)
      (h₂ : stack.Selects c₂ args₂ (.integer Int64.minValue) (.list items))
      (h₃ : stack.Selects c₃ args₃ (.bool true) (.list items)) :
      stack.value (.call c args) = .ok (.text "b") ∧
        stack.value (.call c₁ args₁) = .ok (.text "b") ∧
        stack.value (.call c₂ args₂) = .ok (.text "") ∧
        stack.value (.call c₃ args₃) = fault (.call c₃.name .listIndex) := by
    have hvalue := ((selecting_counts_items h).1 _ hlast).1 1 (by decide) (.inr rfl)
    refine ⟨hvalue, ?_, ?_, ?_⟩
    · have hjson := (selecting_counts_items h).2.2 c₁ args₁ _ hname h₁
        (.inr ⟨1, by decide, hportable, rfl⟩)
      rw [hjson, hvalue]
      rfl
    · exact ((selecting_counts_items h₂).1 _ (.integer _)).2 (.inl (by decide))
    · exact (selecting_counts_items h₃).2.1 nofun
  refine ⟨_, _, _, _, _, _, _, _, _, _, rfl, rfl, rfl, rfl, rfl, rfl, hvalues ?_ ?_ rfl ?_ ?_⟩
  · exact ⟨rfl, rfl, _, _, rfl, value_of_isPlain _ _ rfl, value_of_isPlain _ _ rfl⟩
  · exact ⟨rfl, rfl, _, _, rfl, value_of_isPlain _ _ rfl, value_of_isPlain _ _ rfl⟩
  · exact ⟨rfl, rfl, _, _, rfl, value_of_isPlain _ _ rfl, value_of_isPlain _ _ rfl⟩
  · exact ⟨rfl, rfl, _, _, rfl, value_of_isPlain _ _ rfl, value_of_isPlain _ _ rfl⟩

end Stack

end Orchestration
