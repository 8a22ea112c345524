import Orchestration.Function.Writing
import Orchestration.Proofs.Text.Substitution
import Orchestration.Proofs.Values.Alike
import Orchestration.Proofs.Values.Results

namespace Orchestration

namespace Writing

open Result (Alike)

variable {function : String} {v w : Value} {m m' : Fields Value}

theorem text_alike (what : String) (h : v.Alike w) :
    Alike (· = ·) (text function what v) (text function what w) := by
  cases h.cases with
  | scalar => exact .refl (fun _ => rfl) _
  | _ => exact .error

theorem itemText_alike (multiple : Bool) (h : v.Alike w) :
    Alike (· = ·) (itemText function multiple v) (itemText function multiple w) := by
  have hjson := h.sortedJson
  cases h.cases with
  | scalar => exact .refl (fun _ => rfl) _
  | _ =>
    cases multiple
    · exact .error
    · exact .ok hjson

theorem itemTexts_alike (multiple : Bool) (h : v.Alike w) :
    Alike (· = ·) (itemTexts function multiple v) (itemTexts function multiple w) := by
  cases h.cases with
  | scalar => exact .refl (fun _ => rfl) _
  | list hitems =>
    exact (Alike.mapM hitems fun _ _ => itemText_alike multiple).imp fun _ _ heq => by
      rwa [List.forall₂_eq_eq_eq] at heq
  | _ => exact .error

theorem splitText_alike (h : v.Alike w) :
    Alike (· = ·) (splitText function v) (splitText function w) := by
  cases h.cases with
  | scalar => exact .refl (fun _ => rfl) _
  | _ => exact .error

theorem piece_eq (pieces : List String) (h : v.Alike w) :
    piece function pieces v = piece function pieces w := by
  cases h.cases <;> rfl

theorem param_alike (strictness : Strictness) (template name : String) (h : v.Alike w) :
    Alike (· = ·) (param function strictness template name v)
      (param function strictness template name w) := by
  unfold param
  rw [h.plain?]
  cases w.plain? with
  | none => exact .error
  | some s => exact .refl (fun _ => rfl) _

theorem exists_of_param {strictness : Strictness} {template name : String} {p : Text.Placeholder}
    (h : param function strictness template name v = .ok p) :
    ∃ text, v.plain? = some text ∧ p = ⟨name.toList, text.toList⟩ := by
  unfold param at h
  split at h
  · cases h
  · next text htext =>
    dsimp only at h
    split at h
    · cases h
    · split at h
      · cases h
      · cases h
        exact ⟨text, htext, rfl⟩

/-- No two names that have one width overlap, so it does not count which is written first. -/
def OverlapFree (names : List String) : Prop :=
  Text.NoneOverlap (names.map fun name => ⟨name.toList, []⟩)

def params (function : String) (strictness : Strictness) (template : String) (m : Fields Value) :
    Result (List Text.Placeholder) :=
  (·.filter fun p => !p.name.isEmpty) <$>
    m.mapM fun e => param function strictness template e.1 e.2

theorem replace_map (strictness : Strictness) (template : String) :
    replace function strictness template (.map m) = (fun ps =>
      .text (String.ofList (Text.substitute (Text.Placeholder.sort ps) template.toList))) <$>
        params function strictness template m := by
  rw [replace, params]
  cases m.mapM fun e => param function strictness template e.1 e.2 <;> rfl

theorem names_of_mapM_param {strictness : Strictness} {template : String}
    {ps : List Text.Placeholder}
    (h : (m.mapM fun e => param function strictness template e.1 e.2) = .ok ps) :
    ps.map (·.name) = m.keys.map String.toList := by
  induction m generalizing ps with
  | nil =>
    cases h
    rfl
  | cons e rest ih =>
    rw [List.mapM_cons] at h
    obtain ⟨p, hp, h⟩ := Run.exists_of_bind_ok h
    obtain ⟨ps, hps, h⟩ := Run.exists_of_bind_ok h
    cases h
    obtain ⟨_, -, rfl⟩ := exists_of_param hp
    exact congrArg _ (ih hps)

theorem of_params {strictness : Strictness} {template : String} {ps : List Text.Placeholder}
    (h : params function strictness template m = .ok ps) :
    (∀ p ∈ ps, p.name ≠ []) ∧ (OverlapFree m.keys → Text.NoneOverlap ps) := by
  obtain ⟨all, hall, rfl⟩ := Run.exists_of_map_ok h
  refine ⟨fun p hp => by simpa using (List.mem_filter.1 hp).2, fun hfree => ?_⟩
  have hnames : all.map (fun p => (⟨p.name, []⟩ : Text.Placeholder)) =
      m.keys.map fun name => ⟨name.toList, []⟩ := by
    have hnames := congrArg (List.map fun name => (⟨name, []⟩ : Text.Placeholder))
      (names_of_mapM_param hall)
    rwa [List.map_map, List.map_map] at hnames
  rw [OverlapFree, ← hnames, Text.NoneOverlap, List.pairwise_map] at hfree
  exact List.Pairwise.filter _ hfree

theorem replace_alike (strictness : Strictness) (template : String)
    (h : Value.Alike (.map m) (.map m')) (horder : m.keys = m'.keys ∨ OverlapFree m.keys) :
    Alike (· = ·) (replace function strictness template (.map m))
      (replace function strictness template (.map m')) := by
  have hentries {n : Fields Value} (hn : List.Forall₂ (Fields.Entry Value.Alike) m n) :
      Alike (· = ·) (params function strictness template m)
        (params function strictness template n) := by
    refine Alike.map (R := List.Forall₂ (· = ·)) (Alike.mapM hn fun e e' he => ?_) fun _ _ heq => ?_
    · exact he.1 ▸ param_alike strictness template e.1 he.2
    · rw [List.forall₂_eq_eq_eq] at heq
      rw [heq]
  rw [replace_map, replace_map]
  obtain hkeys | hfree := horder
  · exact (hentries (h.forall₂_of_keys_eq hkeys)).map fun _ _ heq => by rw [heq]
  · obtain ⟨n, hn, hperm⟩ := h.exists_perm
    have hparams : Alike List.Perm (params function strictness template n)
        (params function strictness template m') :=
      (Alike.mapM_perm hperm).map fun _ _ h => h.filter _
    refine (((hentries hn).trans hparams).and_left fun _ => of_params).map ?_
    rintro ps ps' ⟨⟨hnames, hnone⟩, _, rfl, hps⟩
    rw [Text.substitute_sort hps hnames (hnone hfree)]

end Writing

end Orchestration
