import Orchestration.Proofs.Snippets.Made

namespace Orchestration

namespace Snippet

mutual

/-- A snippet without the arguments of its calls, and without the stack they were read for. -/
def bare : Snippet → Snippet
  | .scalar s => .scalar s
  | .list items => .list (bareItems items)
  | .map fields => .map (bareFields fields)
  | .call c _ => .call { c with stack := ⟨""⟩ } .null

def bareItems : List Snippet → List Snippet
  | [] => []
  | s :: rest => s.bare :: bareItems rest

def bareFields : List (String × Snippet) → List (String × Snippet)
  | [] => []
  | (k, s) :: rest => (k, s.bare) :: bareFields rest

end

theorem bareItems_eq_map (items : List Snippet) : bareItems items = items.map bare := by
  induction items with
  | nil => rfl
  | cons s rest ih => rw [bareItems, ih, List.map_cons]

theorem keys_bareFields (fields : List (String × Snippet)) :
    Fields.keys (bareFields fields) = Fields.keys fields := by
  induction fields with
  | nil => rfl
  | cons e rest ih => rw [bareFields, Fields.keys, List.map_cons, ← Fields.keys, ih]; rfl

theorem length_bareFields (fields : List (String × Snippet)) :
    (bareFields fields).length = fields.length := by
  simpa [Fields.keys] using congrArg List.length (keys_bareFields fields)

theorem get?_bareFields (fields : List (String × Snippet)) (key : String) :
    Fields.get? (bareFields fields) key = (Fields.get? fields key).map bare := by
  induction fields with
  | nil => rfl
  | cons e rest ih =>
    simp only [bareFields, Fields.get?, ih]
    split <;> rfl

theorem bare_eq_text {s : Snippet} {name : String} (h : s.bare = .text name) : s = .text name := by
  cases s with
  | scalar s => exact h
  | _ => cases h

theorem bare_eq_pair {s field : Snippet} {name : String}
    (h : s.bare = .list [.text name, field]) : ∃ field, s = .list [.text name, field] := by
  cases s with
  | list items =>
    rw [bare, bareItems_eq_map] at h
    obtain ⟨first, rest, rfl, hfirst, hrest⟩ := List.map_eq_cons_iff.1 (list.inj h)
    obtain ⟨second, rest, rfl, -, hrest⟩ := List.map_eq_cons_iff.1 hrest
    cases List.map_eq_nil_iff.1 hrest
    exact ⟨second, by rw [bare_eq_text hfirst]⟩
  | _ => cases h

theorem text?_bare (s : Snippet) : s.bare.text? = s.text? := by
  cases s <;> rfl

end Snippet

namespace Form

open Snippet (bare bareItems bareFields)

variable {site : Site} {form : Form} {fn : Intrinsic} {args args' : Snippet}

theorem checkArity_bare (args : Snippet) :
    form.checkArity site args.bare = form.checkArity site args := by
  unfold checkArity
  cases form.arity? with
  | none => rfl
  | some accepts =>
    cases args with
    | list items => simp only [bare, Snippet.bareItems_eq_map, List.length_map]
    | _ => rfl

theorem checkCondition_bare (s : Snippet) : site.checkCondition s.bare = site.checkCondition s := by
  cases s <;> rfl

theorem checkConditions_bare (items : List Snippet) :
    (bareItems items).forM site.checkCondition = items.forM site.checkCondition := by
  induction items with
  | nil => rfl
  | cons s rest ih =>
    calc site.checkCondition s.bare >>= (fun _ => (bareItems rest).forM site.checkCondition)
      _ = site.checkCondition s >>= fun _ => rest.forM site.checkCondition := by
        rw [checkCondition_bare, ih]

theorem checkAlgorithm_bare (s : Snippet) : site.checkAlgorithm s.bare = site.checkAlgorithm s := by
  cases s <;> rfl

theorem checkAttribute_bare (args : Snippet) :
    site.checkAttribute form args.bare = site.checkAttribute form args := by
  cases args with
  | list items =>
    cases items with
    | nil => rfl
    | cons s rest =>
      cases s with
      | scalar s =>
        cases s with
        | text name => cases rest <;> rfl
        | _ => rfl
      | _ => rfl
  | _ => rfl

theorem checkLoop_bare (zips : Bool) (args : Snippet) :
    site.checkLoop zips args.bare = site.checkLoop zips args := by
  cases args with
  | map fields =>
    simp only [bare, Site.checkLoop, Snippet.map?, Fields.contains, Snippet.keys_bareFields,
      Snippet.get?_bareFields, Option.isSome_map]
    cases Fields.get? fields "for_each" with
    | none => rfl
    | some s => cases s <;> rfl
  | _ => rfl

theorem checkMembers_bare (args : Snippet) :
    memberList.checkArgs site args.bare = memberList.checkArgs site args := by
  cases args with
  | list items =>
    rcases items with _ | ⟨key, _ | ⟨field, rest⟩⟩
    · rfl
    · cases key with
      | scalar s => cases s <;> rfl
      | _ => rfl
    · cases key with
      | scalar s =>
        cases field with
        | scalar s' =>
          cases s <;> cases s' <;> first | rfl | rcases rest with _ | ⟨_, _ | ⟨_, _⟩⟩ <;> rfl
        | _ => cases s <;> rfl
      | _ => rfl
  | _ => rfl

theorem checkReplacements_bare (strictness : Strictness) (args : Snippet) :
    (replaceMap strictness).checkArgs site args.bare =
      (replaceMap strictness).checkArgs site args := by
  cases args with
  | map fields =>
    simp only [bare, checkArgs, Fields.contains, Snippet.length_bareFields,
      Snippet.get?_bareFields, Option.isSome_map]
    rfl
  | _ => rfl

theorem checkChoice_bare (args : Snippet) :
    choice.checkArgs site args.bare = choice.checkArgs site args := by
  cases args with
  | list items =>
    cases items with
    | nil => rfl
    | cons s rest =>
      cases s with
      | scalar s => cases s <;> rfl
      | _ => rfl
  | _ => rfl

theorem checkArgs_bare (args : Snippet) :
    form.checkArgs site args.bare = form.checkArgs site args := by
  cases form with
  | parameter =>
    cases args with
    | list items => cases items <;> rfl
    | _ => rfl
  | resource | file | condition =>
    cases args with
    | scalar s => cases s <;> rfl
    | _ => rfl
  | attributeOf => exact checkAttribute_bare args
  | memberList => exact checkMembers_bare args
  | loop zips => exact checkLoop_bare zips args
  | replaceMap strictness => exact checkReplacements_bare strictness args
  | digest =>
    cases args with
    | list items =>
      cases items with
      | nil => rfl
      | cons s rest => exact checkAlgorithm_bare s
    | _ => rfl
  | connective c =>
    cases args with
    | list items => exact checkConditions_bare items
    | _ => rfl
  | choice => exact checkChoice_bare args
  | _ => rfl

theorem Builds.of_bare (h : form.Builds site args fn args') {other : Snippet}
    (hother : other.bare = args'.bare) : form.Builds site other fn other := by
  cases h with
  | plain hp harity hargs =>
    refine .plain hp ?_ ?_
    · rw [← checkArity_bare, hother, checkArity_bare, harity]
    · rw [← checkArgs_bare, hother, checkArgs_bare, hargs]
  | referredResource hmode hres =>
    cases Snippet.bare_eq_text hother
    exact .referredResource hmode hres
  | referredParameter hno hargs =>
    refine .referredParameter (fun name hname => hno name ?_) ?_
    · rw [hname] at hother
      exact Snippet.bare_eq_text hother.symm
    · rw [← checkArgs_bare, hother, checkArgs_bare, hargs]
  | dotted =>
    obtain ⟨field, rfl⟩ := Snippet.bare_eq_pair hother
    exact .pair
  | pair =>
    obtain ⟨field, rfl⟩ := Snippet.bare_eq_pair hother
    exact .pair
  | facade hfield =>
    refine .facade ?_
    rw [← Snippet.text?_bare, hother, Snippet.text?_bare, hfield]

end Form

end Orchestration
