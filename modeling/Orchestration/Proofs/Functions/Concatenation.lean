import Orchestration.Proofs.Evaluation
import Orchestration.Proofs.Values.Equivalence

namespace Orchestration

namespace Collection

variable {items found : List Value} {v w : Value}

/-- The items that equal none of the items before them, in their order. -/
def firsts (items : List Value) : List Value :=
  (items.zipIdx.filter fun e => !Value.among (items.take e.2) e.1).map Prod.fst

theorem append_false (found items : List Value) : append false found items = found ++ items := by
  induction items generalizing found with
  | nil => exact (List.append_nil found).symm
  | cons v rest ih => exact (ih (found ++ [v])).trans (List.append_assoc ..)

theorem append_snoc (unique : Bool) (found items : List Value) (v : Value) :
    append unique found (items ++ [v]) =
      if unique && Value.among (append unique found items) v then append unique found items
      else append unique found items ++ [v] := by
  rw [append, List.foldl_append]
  rfl

theorem append_append (unique : Bool) (found : List Value) (lists : List (List Value)) :
    lists.foldl (append unique) found = append unique found lists.flatten := by
  rw [append, List.foldl_flatten]
  rfl

theorem among_iff : Value.among items v = true ↔ ∃ w ∈ items, w.equal v = true := by
  rw [Value.among, List.any_eq_true]

theorem firsts_snoc (items : List Value) (v : Value) :
    firsts (items ++ [v]) = if Value.among items v then firsts items else firsts items ++ [v] := by
  have hbefore : items.zipIdx.filter (fun e => !Value.among ((items ++ [v]).take e.2) e.1) =
      items.zipIdx.filter fun e => !Value.among (items.take e.2) e.1 := by
    refine List.filter_congr fun e he => ?_
    have hitem : items[e.2]? = some e.1 := List.mem_zipIdx_iff_getElem?.1 he
    have hlt : e.2 < items.length := (List.getElem?_eq_some_iff.1 hitem).1
    rw [List.take_append_of_le_length hlt.le]
  rw [firsts, List.zipIdx_append, List.filter_append, List.map_append, hbefore, Nat.zero_add,
    List.zipIdx_singleton, List.filter_singleton, List.take_left, ← firsts]
  cases Value.among items v <;> simp

theorem append_sublist (items : List Value) : (append true [] items).Sublist items := by
  -- from the end, since an item is compared with what was found before it
  induction items using List.reverseRecOn with
  | nil => exact .slnil
  | append_singleton items v ih =>
    rw [append_snoc]
    split
    · exact ih.trans (List.sublist_append_left items [v])
    · exact ih.append (.refl [v])

theorem among_append_unique (htidy : ∀ w ∈ items, w.Tidy) (v : Value) :
    Value.among (append true [] items) v = Value.among items v := by
  rw [Bool.eq_iff_iff, among_iff, among_iff]
  refine ⟨fun ⟨w, hw, hv⟩ => ⟨w, (append_sublist items).subset hw, hv⟩, ?_⟩
  rintro ⟨w, hw, hv⟩
  induction items using List.reverseRecOn with
  | nil => cases hw
  | append_singleton items u ih =>
    obtain ⟨hitems, hu⟩ := List.forall_mem_append.1 htidy
    rw [append_snoc]
    split
    · next hfound =>
      obtain hw | hw := List.mem_append.1 hw
      · exact ih hitems hw
      · obtain rfl := List.mem_singleton.1 hw
        obtain ⟨x, hx, hxw⟩ := among_iff.1 hfound
        have hxtidy := hitems x ((append_sublist items).subset hx)
        exact ⟨x, hx, Value.equal_trans hxtidy (hu w hw) hxw hv⟩
    · obtain hw | hw := List.mem_append.1 hw
      · obtain ⟨x, hx, hxv⟩ := ih hitems hw
        exact ⟨x, List.mem_append_left _ hx, hxv⟩
      · exact ⟨w, List.mem_append_right _ hw, hv⟩

theorem append_eq_firsts (htidy : ∀ w ∈ items, w.Tidy) : append true [] items = firsts items := by
  induction items using List.reverseRecOn with
  | nil => rfl
  | append_singleton items v ih =>
    obtain ⟨hitems, -⟩ := List.forall_mem_append.1 htidy
    rw [append_snoc, firsts_snoc, Bool.true_and, among_append_unique hitems, ih hitems]

theorem pairwise_append (htidy : ∀ w ∈ items, w.Tidy) :
    (append true [] items).Pairwise fun v w => v.equal w = false ∧ w.equal v = false := by
  induction items using List.reverseRecOn with
  | nil => exact .nil
  | append_singleton items u ih =>
    obtain ⟨hitems, hu⟩ := List.forall_mem_append.1 htidy
    rw [append_snoc]
    split
    · exact ih hitems
    · next hfound =>
      refine List.pairwise_append.2 ⟨ih hitems, List.pairwise_singleton _ _, fun v hv w hw => ?_⟩
      obtain rfl := List.mem_singleton.1 hw
      have hvw : ¬v.equal w = true := fun h => hfound (among_iff.2 ⟨v, hv, h⟩)
      have hvtidy := hitems v ((append_sublist items).subset hv)
      refine ⟨Bool.eq_false_iff.2 hvw, Bool.eq_false_iff.2 fun h => hvw ?_⟩
      exact Value.equal_symm (hu w hw) hvtidy h

theorem append_of_pairwise (h : items.Pairwise fun v w => v.equal w = false) :
    append true [] items = items := by
  induction items using List.reverseRecOn with
  | nil => rfl
  | append_singleton items u ih =>
    obtain ⟨hitems, -, hu⟩ := List.pairwise_append.1 h
    have hnone : ¬Value.among items u = true := by
      rintro hfound
      obtain ⟨v, hv, hequal⟩ := among_iff.1 hfound
      rw [hu v hv u (List.mem_singleton_self u)] at hequal
      cases hequal
    rw [append_snoc, ih hitems, Bool.true_and, if_neg hnone]

end Collection

namespace Stack

open Evaluation (Operand Site operand arguments)

variable {stack : Stack} {c c' : Call} {args : Snippet} {unique : Bool} {w : Value}
  {lists : List (List Value)}

/-- Values that stand for the items of a list; null stands for none. -/
inductive Listed : Value → List Value → Prop
  | list (items : List Value) : Listed (.list items) items
  | null : Listed .null []

def ListsOf (stack : Stack) (os : List Operand) (lists : List (List Value)) : Prop :=
  List.Forall₂ (fun o items => ∃ v, o.value.run stack.truthOf = .ok v ∧ Listed v items) os lists

theorem value_concat_eq_ok_iff (hown : c.stack = stack.id) (hfn : c.fn = .concat unique) :
    stack.value (.call c args) = .ok w ↔
      ∃ lists, stack.ListsOf (arguments stack args).items lists ∧
        .list (Collection.append unique [] lists.flatten) = w := by
  rw [value_own hown, hfn, Site.value, Site.concat, Inquiry.run_map, Inquiry.run_foldlM,
    Run.map_eq_ok_iff]
  refine (exists_congr fun found => and_congr_left' (Run.foldlM_eq_ok_iff
    (R := fun o items => ∃ v, o.value.run stack.truthOf = .ok v ∧ Listed v items)
    (g := Collection.append unique) fun found o found' => ?_)).trans ?_
  · rw [Inquiry.run_bind]
    constructor
    · intro h
      obtain ⟨v, hv, h⟩ := Run.exists_of_bind_ok h
      cases v with
      | list items =>
        cases h
        exact ⟨items, ⟨_, hv, .list items⟩, rfl⟩
      | map fields => cases h
      | scalar s =>
        cases s with
        | null =>
          cases h
          exact ⟨[], ⟨_, hv, .null⟩, rfl⟩
        | _ => cases h
    · rintro ⟨items, ⟨v, hv, hlisted⟩, rfl⟩
      rw [Run.ok_bind hv]
      cases hlisted <;> rfl
  · constructor
    · rintro ⟨_, ⟨lists, hlists, rfl⟩, rfl⟩
      exact ⟨lists, hlists, by rw [Collection.append_append]⟩
    · rintro ⟨lists, hlists, rfl⟩
      exact ⟨_, ⟨lists, hlists, rfl⟩, by rw [Collection.append_append]⟩

theorem value_concat_fails_iff (hown : c.stack = stack.id) (hfn : c.fn = .concat unique) :
    (∃ e, stack.value (.call c args) = .error e) ↔
      ¬∃ lists, stack.ListsOf (arguments stack args).items lists := by
  have hok (w : Value) : stack.value (.call c args) = .ok w ↔ _ :=
    value_concat_eq_ok_iff hown hfn
  generalize stack.value (.call c args) = result at hok
  cases result with
  | error e =>
    refine iff_of_true ⟨e, rfl⟩ ?_
    rintro ⟨lists, hlists⟩
    cases (hok _).2 ⟨lists, hlists, rfl⟩
  | ok w =>
    obtain ⟨lists, hlists, -⟩ := (hok w).1 rfl
    exact iff_of_false nofun (not_not_intro ⟨lists, hlists⟩)

def GivesLists (stack : Stack) (args : Snippet) (lists : List (List Value)) : Prop :=
  ∃ parts, args = .list parts ∧
    List.Forall₂ (fun s items => ∃ v, stack.value s = .ok v ∧ Listed v items) parts lists

theorem value_concat (hown : c.stack = stack.id) (hfn : c.fn = .concat unique)
    (h : stack.GivesLists args lists) : stack.value (.call c args) =
      .ok (.list (Collection.append unique [] lists.flatten)) := by
  obtain ⟨parts, rfl, hparts⟩ := h
  refine (value_concat_eq_ok_iff hown hfn).2 ⟨lists, ?_, rfl⟩
  rw [ListsOf, arguments_items, List.forall₂_map_left_iff]
  simpa only [operand_run] using hparts

/-- Concatenating all items and each once fail on the same arguments. Where both succeed, the second
gives the items that equal none before them: no two of them are equal, every item has its equal
among them, and once more they are all kept. -/
theorem concatenation_keeps_firsts (hown : c.stack = stack.id) (hfn : c.fn = .concat false)
    (hown' : c'.stack = stack.id) (hfn' : c'.fn = .concat true) :
    (∀ args, (∃ e, stack.value (.call c args) = .error e) ↔
      ∃ e, stack.value (.call c' args) = .error e) ∧
    ∀ args lists, stack.GivesLists args lists → (∀ v ∈ lists.flatten, v.Tidy) →
      stack.value (.call c args) = .ok (.list lists.flatten) ∧
      ∃ uniques, stack.value (.call c' args) = .ok (.list uniques) ∧
        uniques = Collection.firsts lists.flatten ∧ uniques.Sublist lists.flatten ∧
        uniques.Pairwise (fun v w => v.equal w = false ∧ w.equal v = false) ∧
        (∀ x, (∃ v ∈ uniques, v.equal x = true) ↔ ∃ v ∈ lists.flatten, v.equal x = true) ∧
        ∀ args', stack.GivesLists args' [uniques] →
          stack.value (.call c' args') = .ok (.list uniques) := by
  refine ⟨fun args => ?_, fun args lists h htidy => ⟨?_, _, value_concat hown' hfn' h, ?_, ?_, ?_,
    fun x => ?_, fun args' h' => ?_⟩⟩
  · rw [value_concat_fails_iff hown hfn, value_concat_fails_iff hown' hfn']
  · rw [value_concat hown hfn h, Collection.append_false, List.nil_append]
  · exact Collection.append_eq_firsts htidy
  · exact Collection.append_sublist _
  · exact Collection.pairwise_append htidy
  · rw [← Collection.among_iff, ← Collection.among_iff, Collection.among_append_unique htidy]
  · have hpairwise := (Collection.pairwise_append htidy).imp fun h => h.1
    rw [value_concat hown' hfn' h', List.flatten_singleton,
      Collection.append_of_pairwise hpairwise]

/-- A map with its entries in another order is not kept a second time, nor is null from a list that
follows null in place of one. -/
theorem concatenation_keeps_firsts_of_maps :
    let m : Fields Value := [("a", .integer 1), ("b", .text "x")]
    let lists : Value :=
      .list [.list [.map m, .null], .null, .list [.map m.reverse, .text "x", .null]]
    ∃ t stack c c' args,
      Template.ofValue (.map [("heat_template_version", .text "2017-09-01")]) = .ok t ∧
      make ⟨"s"⟩ "s" t [] (StaticResources.toResources []) = .ok stack ∧
      t.snippet .ordinary stack.id (.map [("list_concat", lists)]) = .ok (.call c args) ∧
      t.snippet .ordinary stack.id (.map [("list_concat_unique", lists)]) = .ok (.call c' args) ∧
      stack.value (.call c args) =
        .ok (.list [.map m, .null, .map m.reverse, .text "x", .null]) ∧
      stack.value (.call c' args) = .ok (.list [.map m, .null, .text "x"]) := by
  intro m lists
  have hvalues {stack : Stack} {c c' : Call} {args : Snippet} (hown : c.stack = stack.id)
      (hfn : c.fn = .concat false) (hown' : c'.stack = stack.id) (hfn' : c'.fn = .concat true)
      (h : stack.GivesLists args [[.map m, .null], [], [.map m.reverse, .text "x", .null]]) :
      stack.value (.call c args) = .ok (.list [.map m, .null, .map m.reverse, .text "x", .null]) ∧
        stack.value (.call c' args) = .ok (.list [.map m, .null, .text "x"]) := by
    obtain ⟨hall, uniques, hvalue, rfl, -⟩ :=
      (concatenation_keeps_firsts hown hfn hown' hfn').2 args _ h (Value.tidy_list_iff.1 rfl)
    exact ⟨hall, hvalue⟩
  refine ⟨_, _, _, _, _, rfl, rfl, rfl, rfl, hvalues rfl rfl rfl rfl ⟨_, rfl, ?_⟩⟩
  exact .cons ⟨_, value_of_isPlain _ _ rfl, .list _⟩ (.cons ⟨_, value_of_isPlain _ _ rfl, .null⟩
    (.cons ⟨_, value_of_isPlain _ _ rfl, .list _⟩ .nil))

end Stack

end Orchestration
