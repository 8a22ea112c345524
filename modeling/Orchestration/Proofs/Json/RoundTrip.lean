import Orchestration.Proofs.Functions.Selecting
import Orchestration.Proofs.Functions.Splitting
import Orchestration.Proofs.Values.Equivalence

namespace Orchestration

theorem Decimal.Portable.not_nan {d : Decimal} (h : d.Portable) : d.isNaN = false := by
  refine decide_eq_false ?_
  have hfinite : d.magnitude < infinity := of_decide_eq_true h.finite
  exact Nat.lt_asymm hfinite

namespace Value

variable {n n' : Nat} {v w : Value}

namespace Portable

theorem sortKeys (h : v.Portable n) : v.sortKeys.Portable n := by
  induction h with
  | scalar h =>
    rw [Value.sortKeys]
    exact .scalar h
  | list _ ih =>
    rw [Value.sortKeys, sortItems_eq]
    exact .list (List.forall_mem_map.2 ih)
  | @map n fields hkeys _ ih =>
    have hperm := Fields.mergeSortKeys_perm (sortFields fields)
    rw [sortKeys_map]
    refine .map ((hperm.map Prod.fst).nodup_iff.2 ?_) fun e he => ?_
    · rwa [sortFields_eq, ← Fields.keys, Fields.keys_map]
    · rw [hperm.mem_iff, sortFields_eq] at he
      obtain ⟨e, hmem, rfl⟩ := List.mem_map.1 he
      exact ih e hmem

theorem tidy (h : v.Portable n) : v.Tidy := by
  induction h with
  | scalar _ => exact tidy_scalar _
  | list _ ih => exact tidy_list_iff.2 ih
  | map hkeys _ ih => exact tidy_map_iff.2 ⟨hkeys, ih⟩

theorem decimal_at {place : Breadcrumb} {d : Decimal} (h : v.Portable n)
    (hd : v.follow? place = some (.decimal d)) : d.Portable := by
  induction place generalizing v n with
  | nil =>
    obtain rfl : v = .decimal d := by simpa using hd
    cases h with
    | scalar h => exact h d rfl
  | cons segment place ih =>
    cases h with
    | scalar _ => cases segment <;> cases hd
    | list h =>
      cases segment with
      | key _ => cases hd
      | index i =>
        obtain ⟨v, hv, hd⟩ := Option.bind_eq_some_iff.1 hd
        exact ih (h v (List.mem_of_getElem? hv)) hd
    | map _ h =>
      cases segment with
      | index _ => cases hd
      | key key =>
        obtain ⟨v, hv, hd⟩ := Option.bind_eq_some_iff.1 hd
        exact ih (h (key, v) (Fields.mem_of_get? hv)) hd

theorem nanFree (h : v.Portable n) : v.NaNFree := fun _ _ hd => (h.decimal_at hd).not_nan

theorem zerosAgree (h : v.Portable n) (h' : w.Portable n') : v.ZerosAgree w := by
  intro place d d' hd hd' hzero hzero'
  rw [(h.decimal_at hd).not_negative_zero hzero, (h'.decimal_at hd').not_negative_zero hzero']

theorem equal_self (h : v.Portable n) : v.equal v = true := (equal_self_iff h.tidy).2 h.nanFree

theorem alike_of_equal (h : v.Portable n) (h' : w.Portable n') (heq : v.equal w = true) :
    v.Alike w := Value.alike_of_equal h.tidy h'.tidy heq (h.zerosAgree h')

theorem equal_iff_alike (h : v.Portable n) (h' : w.Portable n') :
    v.equal w = true ↔ v.Alike w :=
  ⟨h.alike_of_equal h', fun halike => ((Alike.refl v).equal halike).symm.trans h.equal_self⟩

theorem read?_sortedJson (h : v.Portable n) (hn : n ≤ Json.Dialect.data.depth) :
    Json.read? .data v.sortedJson = some v.sortKeys := Json.read?_json h.sortKeys hn

theorem equal_iff_sortedJson_eq (h : v.Portable n) (hn : n ≤ Json.Dialect.data.depth)
    (h' : w.Portable n') (hn' : n' ≤ Json.Dialect.data.depth) :
    v.equal w = true ↔ v.sortedJson = w.sortedJson := by
  rw [h.equal_iff_alike h']
  refine ⟨Alike.sortedJson, fun heq => ?_⟩
  have hread := h.read?_sortedJson hn
  rw [heq, h'.read?_sortedJson hn'] at hread
  exact (Option.some.inj hread).symm

theorem alike_sortKeys (h : v.Portable n) : v.sortKeys.Alike v := by
  induction h with
  | scalar _ => rw [Value.sortKeys]; exact .refl _
  | list _ ih =>
    rw [Value.sortKeys, sortItems_eq, Alike.list_iff]
    exact List.forall₂_map_left_iff.2 (List.forall₂_same.2 ih)
  | map _ _ ih =>
    rw [sortKeys_map, Alike.map_iff]
    intro key
    rw [Fields.under_mergeSortKeys, sortFields_eq, Fields.under_map, List.forall₂_map_left_iff,
      List.forall₂_same]
    intro v hv
    obtain ⟨e, he, rfl⟩ := List.mem_map.1 hv
    exact ih e (List.mem_filter.1 he).1

theorem sortKeys_equal (h : v.Portable n) : v.sortKeys.equal v = true :=
  (h.sortKeys.equal_iff_alike h).2 h.alike_sortKeys

end Portable

end Value

namespace Stack

variable {stack : Stack} {c : Call} {args : Snippet} {m : Fields Value} {key : String} {n : Nat}

structure SelectsFromText (stack : Stack) (c : Call) (args : Snippet) (m : Fields Value)
    (key : String) : Prop where
  own : c.stack = stack.id
  isSelect : c.fn = .select
  args : ∃ index c' delimiter list,
    args = .list [index, .call c' (.list [delimiter, list])] ∧
    stack.value index = .ok (.text key) ∧ c'.stack = stack.id ∧ c'.fn = .join true ∧
    stack.value delimiter = .ok (.text "") ∧ stack.value list = .ok (.list [.map m])

theorem value_selectsFromText (h : stack.SelectsFromText c args m key)
    (hm : (Value.map m).Portable n) (hn : n ≤ Json.Dialect.data.depth) :
    stack.value (.call c args) = .ok (((m.get? key).map Value.sortKeys).getD (.text "")) := by
  obtain ⟨hown, hfn, index, c', delimiter, list, rfl, hindex, hown', hfn', hdelimiter, hlist⟩ := h
  have htexts : Writing.itemTexts c'.name true (.list [.map m]) = .ok [(Value.map m).sortedJson] :=
    rfl
  have hjoin := value_joining hown' hfn' hdelimiter hlist htexts
  have htext : Writing.join "" [(Value.map m).sortedJson] = (Value.map m).sortedJson := by
    simp [Writing.join, Text.join]
  have hget : (Fields.mergeSortKeys (Value.sortFields m)).get? key =
      (m.get? key).map Value.sortKeys := by
    rw [Fields.get?_mergeSortKeys, Value.sortFields_eq, Fields.get?_map]
  rw [value_select ⟨hown, hfn, _, _, rfl, hindex, hjoin⟩, htext, Collection.select, Collection.decoded,
    hm.read?_sortedJson hn, Value.sortKeys_map, ← hget]
  rfl

/-- A value that JSON texts keep is read from its sorted JSON text as an equal one with the same
scalars, it is equal to the values with the same text and to no other, and an entry that is selected
from the text of a map is the entry of the map. -/
theorem sortedJson_keeps_values {v : Value} (hn : n ≤ 127) (h : v.Portable n) :
    (∃ w, Json.read? .data v.sortedJson = some w ∧ w.Alike v ∧ w.equal v = true) ∧
      (∀ n' w, n' ≤ 127 → w.Portable n' →
        (v.equal w = true ↔ v.sortedJson = w.sortedJson)) ∧
      ∀ (m : Fields Value) key u, v = .map m → m.get? key = some u →
        ∀ (stack : Stack) (c : Call) (args : Snippet), stack.SelectsFromText c args m key →
          ∃ w, stack.value (.call c args) = .ok w ∧ w.Alike u ∧ w.equal u = true := by
  refine ⟨⟨v.sortKeys, h.read?_sortedJson hn, h.alike_sortKeys, h.sortKeys_equal⟩, ?_, ?_⟩
  · exact fun n' w hn' h' => h.equal_iff_sortedJson_eq hn h' hn'
  · rintro m key u rfl hu stack c args hselects
    have hvalue := value_selectsFromText hselects h hn
    rw [hu] at hvalue
    cases h with
    | map _ hentries =>
      have hentry := hentries _ (Fields.mem_of_get? hu)
      exact ⟨u.sortKeys, hvalue, hentry.alike_sortKeys, hentry.sortKeys_equal⟩

theorem sortedJson_keeps_values_of_two :
    let m : Fields Value := [("b", .decimal ⟨0x4004000000000000⟩),
      ("a", .list [.integer (-7), .text "\"\n"])]
    let selected : Value := .map [("Fn::Select",
      .list [.text "b", .map [("list_join", .list [.text "", .list [.map m]])]])]
    ∃ t stack c args,
      Template.ofValue (.map [("heat_template_version", .text "2017-09-01")]) = .ok t ∧
      make ⟨"s"⟩ "s" t [] (StaticResources.toResources []) = .ok stack ∧
      t.snippet .ordinary stack.id selected = .ok (.call c args) ∧
      (∃ w, Json.read? .data (Value.map m).sortedJson = some w ∧ w.equal (.map m) = true) ∧
      ((Value.map m).equal (.map m.reverse) = true ↔
        (Value.map m).sortedJson = (Value.map m.reverse).sortedJson) ∧
      ∃ w, stack.value (.call c args) = .ok w ∧ w.equal (.decimal ⟨0x4004000000000000⟩) = true := by
  intro m selected
  have hdecimal : Decimal.Portable ⟨0x4004000000000000⟩ :=
    ⟨by decide +kernel, by decide +kernel, by decide +kernel⟩
  have hentries : ∀ e ∈ m, e.2.Portable 1 := by
    refine List.forall_mem_cons.2 ⟨.scalar ?_, List.forall_mem_singleton.2 (.list ?_)⟩
    · rintro d hd
      cases hd
      exact hdecimal
    · exact List.forall_mem_cons.2 ⟨.scalar nofun, List.forall_mem_singleton.2 (.scalar nofun)⟩
  have hm : (Value.map m).Portable 2 := .map (by decide) hentries
  have hreverse : (Value.map m.reverse).Portable 2 :=
    .map (by decide) fun e he => hentries e (List.mem_reverse.1 he)
  obtain ⟨⟨w, hread, -, hequal⟩, htexts, hselect⟩ := sortedJson_keeps_values (by decide) hm
  have hvalue {stack : Stack} {c : Call} {args : Snippet}
      (h : stack.SelectsFromText c args m "b") :
      ∃ w, stack.value (.call c args) = .ok w ∧
        w.equal (.decimal ⟨0x4004000000000000⟩) = true := by
    obtain ⟨w, hw, -, hequal⟩ := hselect m "b" _ rfl rfl stack c args h
    exact ⟨w, hw, hequal⟩
  refine ⟨_, _, _, _, rfl, rfl, rfl, ⟨w, hread, hequal⟩, htexts 2 _ (by decide) hreverse,
    hvalue ⟨rfl, rfl, _, _, _, _, rfl, ?_, rfl, rfl, ?_, ?_⟩⟩
  all_goals exact value_of_isPlain _ _ rfl

end Stack

end Orchestration
