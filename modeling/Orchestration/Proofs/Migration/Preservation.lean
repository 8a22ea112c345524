import Orchestration.Properties.View
import Orchestration.Proofs.Migration.Keep

namespace Orchestration

namespace Migration

variable {spot : Spot} {place : Place} {v : Value}

namespace Spot

end Spot

variable {m : Migration} {r : Rule} {p : Properties}

theorem affects_target (hr : r ∈ m.rules) : m.affects r.property := by
  simp only [affects, Bool.or_eq_true, List.any_eq_true, decide_eq_true_eq]
  exact .inl ⟨r, hr, rfl⟩

end Migration

namespace Properties

variable {p : Properties} {key : String} {v : Value}

theorem mem_names_ofValues {fields : Fields Value} (h : (ofValues fields).value key = .ok (some v)) :
    key ∈ fields.keys := by
  have h : (fields.get? key).filter (!·.isNull) = some v := Except.ok.inj h
  refine (Fields.contains_iff _ _).1 ?_
  simp [Fields.contains, (Option.filter_eq_some_iff.1 h).1]

theorem mem_names_ofSnippets {stack : Stack} {fields : Fields Snippet}
    (h : (ofSnippets stack fields).value key = .ok (some v)) : key ∈ fields.keys := by
  refine (Fields.contains_iff _ _).1 ?_
  cases hk : fields.get? key with
  | none =>
    simp only [ofSnippets, hk] at h
    cases h
  | some s => simp [Fields.contains, hk]

theorem ofSnippets_eq_ofValues {stack : Stack} {fields : Fields Snippet} {values : Fields Value}
    (h : List.Forall₂ (fun s v => s.1 = v.1 ∧ stack.value s.2 = .ok v.2) fields values) :
    ofSnippets stack fields = ofValues values := by
  have hkeys : fields.keys = values.keys := by
    induction h with
    | nil => rfl
    | cons hd _ ih => exact congrArg₂ List.cons hd.1 ih
  refine congrArg₂ Properties.mk hkeys (funext fun name => ?_)
  clear hkeys
  induction h with
  | nil => rfl
  | @cons s v fields values hd _ ih =>
    obtain ⟨k, s⟩ := s
    obtain ⟨k', v⟩ := v
    obtain ⟨rfl, hs⟩ := hd
    by_cases hk : k = name
    · dsimp only at hs
      simp only [Fields.get?, hk, ↓reduceIte, hs, Option.filter_some]
      cases hn : v.isNull with
      | true => simp [hn, bind, Except.bind]
      | false => simp [hn, bind, Except.bind]
    · simpa only [Fields.get?, hk, ↓reduceIte] using ih

theorem mem_names {stack : Stack} {s : Option Snippet} (hs : ofSnippet stack s = .ok p)
    (h : p.value key = .ok (some v)) : key ∈ p.names := by
  unfold ofSnippet at hs
  split at hs
  · cases hs
    cases h
  · cases hs
    cases h
  · cases hs
    exact mem_names_ofSnippets h
  · next c args =>
    cases hc : stack.value (.call c args) with
    | error e =>
      rw [hc] at hs
      cases hs
    | ok w =>
      rw [hc] at hs
      cases w with
      | scalar w =>
        cases w with
        | null =>
          cases hs
          cases h
        | _ => cases hs
      | list items => cases hs
      | map fields =>
        cases hs
        exact mem_names_ofValues h
  · cases hs

end Properties

namespace PropertyView

open Migration (Rule Spot Tables Keeping)

variable {view : PropertyView} {m : Migration} {key : String} {tables after : Tables}

theorem mem_foldl_add (targets names : List String) :
    key ∈ targets.foldl (fun keys key => if keys.contains key then keys else keys ++ [key]) names ↔
      key ∈ names ∨ key ∈ targets := by
  induction targets generalizing names with
  | nil => simp
  | cons target targets ih =>
    rw [List.foldl_cons, ih]
    split <;> grind

theorem mem_keys : key ∈ view.keys ↔
    key ∈ view.properties.names ∨ ∃ m ∈ view.migration, key ∈ m.targets := by
  unfold keys
  rw [mem_foldl_add]
  cases view.migration <;> simp

end PropertyView

end Orchestration
