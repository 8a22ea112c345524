import Orchestration.Proofs.Equality.Facing
import Orchestration.Proofs.Equality.Ordered
import Orchestration.Proofs.Values.Same

namespace Orchestration

namespace Snippet

def SameSigns : Snippet → Snippet → Prop
  | .scalar (.decimal d), .scalar (.decimal d') => d.isNegative = d'.isNegative
  | _, _ => True

theorem SameSigns.eq_of_equal {a b : Scalar} (h : SameSigns (.scalar a) (.scalar b))
    (heq : a.equal b = true) : a = b :=
  Scalar.eq_of_equal heq (by rintro d d' rfl rfl; exact h)

end Snippet

namespace Stack

open Evaluation (Operand Parts arguments)
open Snippet (Layer Matches Throughout SameSigns)

variable (stack : Stack)

structure CallsKept (c : Call) (args args' : Snippet) : Prop where
  signs : Throughout SameSigns args args'
  order : Evaluation.Site.KeepsOrder ⟨stack, c.name⟩ (arguments stack args)
    (arguments stack args') c.fn
  operands : c.fn = .negation →
    stack.template.Holds stack.id .ordinary args ∧ stack.template.Holds stack.id .ordinary args'

def Keeps : Snippet → Snippet → Prop
  | .call c args, .call _ args' => stack.CallsKept c args args'
  | _, _ => True

theorem operandsRead_of_keeps {s s' : Snippet} (h : stack.Keeps s s') :
    Snippet.OperandsRead stack.template stack.id s s' := by
  cases s with
  | call c args =>
    cases s' with
    | call c' args' => exact h.operands
    | _ => trivial
  | _ => trivial

theorem mapM_entries {stack : Stack} {R : Value → Value → Prop} {m us m' : Fields Snippet}
    (h : List.Forall₂
      (Fields.Entry fun s s' => Result.Alike R (stack.value s) (stack.value s')) m us)
    (hperm : us.Perm m') (hkeys : m.keys.Nodup) :
    Result.Alike
      (fun n n' => ∃ mid : Fields Value,
        List.Forall₂ (Fields.Entry R) n mid ∧ mid.Perm n' ∧ (Fields.keys n).Nodup)
      (m.mapM fun e => (e.1, ·) <$> stack.value e.2)
      (m'.mapM fun e => (e.1, ·) <$> stack.value e.2) := by
  have hentries : Result.Alike (List.Forall₂ (Fields.Entry R))
      (m.mapM fun e => (e.1, ·) <$> stack.value e.2)
      (us.mapM fun e => (e.1, ·) <$> stack.value e.2) :=
    .mapM h fun e u he => he.2.map fun v w hv => ⟨he.1, hv⟩
  have hkept : ∀ n : Fields Value, (m.mapM fun e => (e.1, ·) <$> stack.value e.2) = .ok n →
      n.keys.Nodup := fun n hn => by
    rw [Fields.keys_of_mapM hn fun e e' he => ?_]
    · exact hkeys
    · obtain ⟨v, -, rfl⟩ := Run.exists_of_map_ok he
      rfl
  refine ((hentries.trans (.mapM_perm hperm)).and_left hkept).imp ?_
  rintro n n' ⟨hn, mid, hmid, hmid'⟩
  exact ⟨mid, hmid, hmid', hn⟩

structure Agree (s s' : Snippet) : Prop where
  written : Layer (fun _ _ => True) s s'
  value : Result.Alike Value.Alike (stack.value s) (stack.value s')
  parts : (Evaluation.parts stack s).Alike stack (Evaluation.parts stack s')

namespace Agree

variable {stack} {s s' : Snippet} {ss ts : List Snippet} {m us m' : Fields Snippet}

theorem operand (h : stack.Agree s s') :
    (Evaluation.operand stack s).Alike stack (Evaluation.operand stack s') where
  written := h.written
  value := by
    have hvalue := h.value
    rwa [value_eq, value_eq] at hvalue

theorem scalar (a : Scalar) (h : a.equal a = true) : stack.Agree (.scalar a) (.scalar a) :=
  ⟨.scalar h, .refl .refl _, .single⟩

theorem list (h : List.Forall₂ stack.Agree ss ts) : stack.Agree (.list ss) (.list ts) where
  written := .list (h.imp fun _ _ _ => trivial)
  value := by
    rw [value_list, value_list]
    exact Result.Alike.map (.mapM h fun _ _ h => h.value) fun _ _ => Value.Alike.list_iff.2
  parts := by
    unfold Evaluation.parts
    rw [Evaluation.operands_eq, Evaluation.operands_eq]
    exact .items (List.forall₂_map_left_iff.2 (List.forall₂_map_right_iff.2
      (h.imp fun _ _ h => h.operand)))

theorem map (h : List.Forall₂ (Fields.Entry stack.Agree) m us)
    (hperm : us.Perm m') (hkeys : m.keys.Nodup) : stack.Agree (.map m) (.map m') where
  written := .map (h.imp fun _ _ h => ⟨h.1, trivial⟩) hperm hkeys
  value := by
    have hvalues : List.Forall₂ (Fields.Entry fun s s' =>
        Result.Alike Value.Alike (stack.value s) (stack.value s')) m us :=
      h.imp fun _ _ h => ⟨h.1, h.2.value⟩
    rw [value_map, value_map]
    exact (mapM_entries hvalues hperm hkeys).map fun _ _ ⟨_, h, hperm, hkeys⟩ =>
      .of_entries h hperm hkeys
  parts := by
    unfold Evaluation.parts
    rw [Evaluation.fieldOperands_eq, Evaluation.fieldOperands_eq]
    refine .fields fun key => ?_
    have hget := Fields.rel_get? h key
    rw [Fields.get?_of_perm hperm (Fields.keys_eq h ▸ hkeys)] at hget
    rw [Fields.get?_map, Fields.get?_map]
    generalize m.get? key = found at hget
    generalize m'.get? key = found' at hget
    cases hget with
    | none => exact .none
    | some h => exact .some h.operand

theorem call {c : Call} {args args' : Snippet} (h : stack.Agree args args')
    (horder : Evaluation.Site.KeepsOrder ⟨stack, c.name⟩ (arguments stack args)
      (arguments stack args') c.fn) : stack.Agree (.call c args) (.call c args') where
  written := .call trivial
  value := by
    rw [value_call, value_call]
    refine Result.Alike.bind (.refl (fun _ => rfl) _) fun _ _ _ => ?_
    exact Evaluation.Site.value_alike ⟨stack, c.name⟩ ⟨h.operand, h.parts⟩ c.fn horder
  parts := .single

end Agree

variable {stack} {s s' : Snippet}

theorem agree_closed : Snippet.Closed stack.template stack.id
    (fun x y => SameSigns x y ∧ stack.Keeps x y) stack.Agree := by
  refine ⟨fun s s' h => operandsRead_of_keeps stack h.2, ?_⟩
  rintro _ _ ⟨hsigns, hkept⟩ h
  cases h with
  | scalar heq =>
    obtain rfl := Snippet.SameSigns.eq_of_equal hsigns heq
    exact .scalar _ heq
  | list h => exact .list (h.imp fun _ _ h => h.2.2)
  | map h hperm hkeys => exact .map (h.imp fun _ _ h => ⟨h.1, h.2.2.2⟩) hperm hkeys
  | call h => exact .call h.2.2 hkept.order

/-- Outside of arguments it does not count that equality leaves out the sign of zeros. -/
theorem same_closed : Snippet.Closed stack.template stack.id stack.Keeps fun x y =>
    Result.Alike Value.Same (stack.value x) (stack.value y) := by
  refine ⟨fun s s' => operandsRead_of_keeps stack, ?_⟩
  rintro _ _ hkept h
  cases h with
  | @scalar a b heq =>
    rw [value_of_isPlain stack (.scalar a) rfl, value_of_isPlain stack (.scalar b) rfl]
    exact .ok (.of_scalar heq)
  | list h =>
    rw [value_list, value_list]
    exact Result.Alike.map (.mapM h fun _ _ h => h.2.2) fun _ _ => Value.Same.of_items
  | map h hperm hkeys =>
    rw [value_map, value_map]
    exact (mapM_entries (h.imp fun _ _ h => ⟨h.1, h.2.2.2⟩) hperm hkeys).map
      fun _ _ ⟨_, h, hperm, hkeys⟩ => .of_entries h hperm hkeys
  | call h =>
    obtain ⟨hmatches, hthroughout, -⟩ := h
    have hagree := agree_closed.relates _ _ hmatches (hkept.signs.and hthroughout)
    exact (Agree.call hagree hkept.order).value.imp fun _ _ => Value.Same.of_alike

def ResolveAlike (stack : Stack) (s s' : Snippet) : Prop :=
  ∀ earlier earlier' : List Request, Result.Alike Value.Same
    ((stack.resolve s).run (stack.memoAfter earlier)).1
    ((stack.resolve s').run (stack.memoAfter earlier')).1

theorem resolveAlike_of_matches (h : Matches stack.template stack.id s s')
    (hkept : Throughout stack.Keeps s s') :
    stack.ResolveAlike s s' := by
  intro earlier earlier'
  rw [resolve_run_memoAfter, resolve_run_memoAfter, ← value_eq, ← value_eq]
  exact same_closed.relates s s' h hkept

end Stack

namespace ResourceDefinition

inductive Part
  | properties
  | metadata
  | updatePolicy

def part (d : ResourceDefinition) : Part → Option Snippet
  | .properties => d.properties
  | .metadata => d.metadata
  | .updatePolicy => d.updatePolicy

end ResourceDefinition

namespace Diff

variable {d : Diff} {stack : Stack}

theorem differs_eq_false_iff {a b : Option Snippet} :
    differs a b = false ↔ Option.Rel (fun s s' => s.equal s' = true) a b := by
  cases a <;> cases b <;> simp [differs]

theorem part_of_not_isChanged (h : d.isChanged = false) (part : ResourceDefinition.Part) :
    Option.Rel (fun s s' => s.equal s' = true) (d.old.part part) (d.new.part part) := by
  simp only [isChanged, Bool.or_eq_false_iff] at h
  obtain ⟨⟨hproperties, hmetadata⟩, hpolicy⟩ := h
  cases part with
  | properties => exact differs_eq_false_iff.1 hproperties
  | metadata => exact differs_eq_false_iff.1 hmetadata
  | updatePolicy => exact differs_eq_false_iff.1 hpolicy

theorem holds_of_holdsParts {t : Template} {stack : StackId} {d : ResourceDefinition}
    (h : t.HoldsParts stack d) (part : ResourceDefinition.Part) :
    ∀ s ∈ d.part part, t.Holds stack .ordinary s := by
  cases part with
  | properties => exact h.properties
  | metadata => exact h.metadata
  | updatePolicy => exact h.updatePolicy

/-- Definitions between which a diff sees no change have the same properties, metadata and update
policies, or fail to. This takes what equality leaves out not to count in their calls: where a
function follows the order of keys it is the same, zeros in arguments have one sign, and what stands
under a negation in place of the name of a condition could be written there. -/
theorem resolveAlike_of_not_isChanged (d : Diff) (stack : Stack)
    (hold : stack.template.HoldsParts stack.id d.old)
    (hnew : stack.template.HoldsParts stack.id d.new)
    (hkeys : ∀ part, ∀ s ∈ d.old.part part, s.canonical.keysApart id = true)
    (hkept : ∀ part, ∀ s ∈ d.old.part part, ∀ s' ∈ d.new.part part,
      Snippet.Throughout stack.Keeps s s')
    (h : d.isChanged = false) (part : ResourceDefinition.Part) :
    Option.Rel stack.ResolveAlike (d.old.part part) (d.new.part part) := by
  have hread := holds_of_holdsParts hold part
  have hread' := holds_of_holdsParts hnew part
  have hkeys := hkeys part
  have hkept := hkept part
  have hequal := part_of_not_isChanged h part
  generalize d.old.part part = old at *
  generalize d.new.part part = new at *
  cases hequal with
  | none => exact .none
  | some hequal =>
    exact .some (Stack.resolveAlike_of_matches
      ⟨hread _ rfl, hread' _ rfl, hkeys _ rfl, hequal⟩ (hkept _ rfl _ rfl))

def ofProperties (s : Snippet) : ResourceDefinition :=
  { name := "server", type := "T", properties := some s }

theorem resolveAlike_of_swapped_params :
    let text : Value := .map [("str_replace", .map [
      ("params", .map [("a", .text "1"), ("b", .text "2")]), ("template", .text "a-b")])]
    let swapped : Value := .map [("str_replace", .map [
      ("template", .text "a-b"), ("params", .map [("b", .text "2"), ("a", .text "1")])])]
    ∃ t stack s s',
      Template.ofValue (.map [("heat_template_version", .text "2016-10-14")]) = .ok t ∧
      Stack.make ⟨"s"⟩ "s" t [] (StaticResources.toResources []) = .ok stack ∧
      stack.template.snippet .ordinary stack.id text = .ok s ∧
      stack.template.snippet .ordinary stack.id swapped = .ok s' ∧
      (Diff.mk (ofProperties s) (ofProperties s')).isChanged = false ∧
      Option.Rel stack.ResolveAlike (some s) (some s') := by
  intro text swapped
  have hresolve {stack : Stack} {v w : Value} {s s' : Snippet}
      (hs : stack.template.snippet .ordinary stack.id v = .ok s)
      (hs' : stack.template.snippet .ordinary stack.id w = .ok s')
      (hkeys : s.canonical.keysApart id = true) (hkept : Snippet.Throughout stack.Keeps s s')
      (h : (Diff.mk (ofProperties s) (ofProperties s')).isChanged = false) :
      Option.Rel stack.ResolveAlike (some s) (some s') := by
    refine resolveAlike_of_not_isChanged ⟨ofProperties s, ofProperties s'⟩ stack ?_ ?_ ?_ ?_ h
      .properties
    · constructor <;> rintro _ ⟨⟩
      exact ⟨v, hs⟩
    · constructor <;> rintro _ ⟨⟩
      exact ⟨w, hs'⟩
    · rintro (_ | _ | _) _ ⟨⟩
      exact hkeys
    · rintro (_ | _ | _) _ ⟨⟩ _ ⟨⟩
      exact hkept
  refine ⟨_, _, _, _, rfl, rfl, rfl, rfl, rfl, ?_⟩
  refine hresolve (v := text) (w := swapped) rfl rfl rfl ?_ rfl
  have hfields {P : Snippet → Snippet → Prop} (hmap : ∀ m m', P (.map m) (.map m'))
      (htext : ∀ a b, P (.text a) (.text b)) : Snippet.Throughout P
        (.map [("params", .map [("a", .text "1"), ("b", .text "2")]), ("template", .text "a-b")])
        (.map [("template", .text "a-b"),
          ("params", .map [("b", .text "2"), ("a", .text "1")])]) := by
    have hparams : Snippet.Throughout P (.map [("a", .text "1"), ("b", .text "2")])
        (.map [("b", .text "2"), ("a", .text "1")]) := by
      refine .map (hmap _ _) ?_
      simp [Snippet.Throughout.scalar (htext _ _)]
    refine .map (hmap _ _) ?_
    simp [Snippet.Throughout.scalar (htext _ _), hparams]
  refine .call ⟨hfields ?_ ?_, ?_, ?_⟩ (hfields ?_ ?_)
  · exact fun _ _ => trivial
  · exact fun _ _ => trivial
  · rintro _ ⟨⟩ _ ⟨⟩ m - hm -
    have hm : Except.ok (Value.map [("a", .text "1"), ("b", .text "2")]) = Except.ok (.map m) := hm
    cases hm
    have hfree : Writing.OverlapFree ["a", "b"] := by
      refine List.pairwise_pair.2 fun _ => ?_
      show Text.Apart ['a'] ['b']
      decide
    exact .inr hfree
  · rintro ⟨⟩
  · exact fun _ _ => trivial
  · exact fun _ _ => trivial

/-- Two values are read as properties between which a diff sees no change, but which do not have
equal values and do not fail both. -/
def Misses (stack : Stack) (v v' : Value) : Prop :=
  ∃ s s', stack.template.snippet .ordinary stack.id v = .ok s ∧
    stack.template.snippet .ordinary stack.id v' = .ok s' ∧
    (Diff.mk (ofProperties s) (ofProperties s')).isChanged = false ∧
    ¬Result.Alike (fun v w => v.equal w = true) (stack.value s) (stack.value s')

theorem not_alike {x y : Result Value} {v w : Value} (hx : x = .ok v) (hy : y = .ok w)
    (h : v.equal w = false) : ¬Result.Alike (fun v w => v.equal w = true) x y := by
  rintro h'
  subst hx hy
  cases h' with | ok h' => rw [h] at h'; cases h'

/-- A diff does not see in which order loops run, which of two keys of a template is written last,
which of two placeholders that overlap is written first, the sign of a zero that is written into a
text, and that a definition is read in other ways than where it was named. -/
theorem misses_order :
    let loops (m : Fields Value) (template : Value) : Value :=
      .map [("repeat", .map [("for_each", .map m), ("template", template)])]
    let text (template : String) (params : Fields Value) : Value :=
      .map [("str_replace", .map [("params", .map params), ("template", .text template)])]
    let base : Value := .map [("equals", .list [.map [("list_concat", .list [])], .null])]
    ∃ t stack, Template.ofValue (.map [("heat_template_version", .text "2016-10-14"),
        ("conditions", .map [("base", base)])]) = .ok t ∧
      Stack.make ⟨"s"⟩ "s" t [] (StaticResources.toResources []) = .ok stack ∧
      Misses stack (loops [("%a%", .texts ["1", "2"]), ("%b%", .texts ["3", "4"])] (.text "%a%%b%"))
        (loops [("%b%", .texts ["3", "4"]), ("%a%", .texts ["1", "2"])] (.text "%a%%b%")) ∧
      Misses stack (loops [("%a%", .texts ["x"])] (.map [("%a%", .integer 1), ("x", .integer 2)]))
        (loops [("%a%", .texts ["x"])] (.map [("x", .integer 2), ("%a%", .integer 1)])) ∧
      Misses stack (text "aba" [("ab", .text "1"), ("ba", .text "2")])
        (text "aba" [("ba", .text "2"), ("ab", .text "1")]) ∧
      Misses stack (text "n" [("n", .decimal ⟨0⟩)])
        (text "n" [("n", .decimal ⟨0x8000000000000000⟩)]) ∧
      Misses stack (.map [("not", .text "base")]) (.map [("not", base)]) := by
  intro loops text base
  -- the order of two placeholders of one width is kept
  have hwritten (p q : Text.Placeholder) (s : List Char) (h : p.width = q.width) :
      (.ok (.text (.ofList (Text.substitute (Text.Placeholder.sort [p, q]) s))) : Result Value) =
        .ok (.text (.ofList (Text.substitute [p, q] s))) := by
    rw [Text.Placeholder.sort, List.mergeSort_of_pairwise (by simp [h])]
  refine ⟨_, _, rfl, rfl, ⟨_, _, rfl, rfl, rfl, ?_⟩, ⟨_, _, rfl, rfl, rfl, ?_⟩,
    ⟨_, _, rfl, rfl, rfl, ?_⟩, ⟨_, _, rfl, rfl, rfl, ?_⟩, ⟨_, _, rfl, rfl, rfl, ?_⟩⟩
  · exact not_alike rfl rfl rfl
  · exact not_alike rfl rfl rfl
  · let ab : Text.Placeholder := ⟨"ab".toList, "1".toList⟩
    let ba : Text.Placeholder := ⟨"ba".toList, "2".toList⟩
    exact not_alike (hwritten ab ba "aba".toList rfl) (hwritten ba ab "aba".toList rfl) rfl
  · exact not_alike (v := .text "0") (w := .text "-0") (by with_unfolding_all rfl)
      (by with_unfolding_all rfl) rfl
  · rintro ⟨⟩

end Diff

end Orchestration
