import Orchestration.Proofs.Evaluation
import Orchestration.Proofs.Text.Segments
import Orchestration.Proofs.Text.Widths
import Orchestration.Proofs.Values.Writing

namespace Orchestration

namespace Text

variable {p : Placeholder} {ps ps' : List Placeholder} {s : List Char} {row : List Segment}

theorem Placeholder.width_eq (p : Placeholder) :
    p.width = (String.ofList p.name).utf8ByteSize := by
  rw [Placeholder.width, foldl_utf8Size, Nat.zero_add, Text.width]

theorem Placeholder.sort_append_cons {before after : List Placeholder}
    (hbefore : ∀ q ∈ before, q.width < p.width) (hafter : ∀ q ∈ after, q.width ≤ p.width) :
    ∃ rest, Placeholder.sort (before ++ p :: after) = p :: rest := by
  have hwidest : ∀ q ∈ before ++ p :: after, q.width ≤ p.width :=
    List.forall_mem_append.2
      ⟨fun q hq => (hbefore q hq).le, List.forall_mem_cons.2 ⟨le_rfl, hafter⟩⟩
  have hfilter : (Placeholder.sort (before ++ p :: after)).filter (·.width = p.width) =
      p :: after.filter (·.width = p.width) := by
    rw [Placeholder.sort,
      Sorting.filter_mergeSort (by simp; omega) (by simp; omega) (by simp; omega)]
    have hnone : before.filter (·.width = p.width) = [] := by
      simpa using fun q hq => (hbefore q hq).ne
    rw [List.filter_append, hnone, List.nil_append, List.filter_cons_of_pos (by simp)]
  have hperm : (Placeholder.sort (before ++ p :: after)).Perm (before ++ p :: after) :=
    List.mergeSort_perm ..
  have hsorted := pairwise_sort (before ++ p :: after)
  cases hsort : Placeholder.sort (before ++ p :: after) with
  | nil => simp [hsort] at hfilter
  | cons q rest =>
    rw [hsort] at hfilter hperm hsorted
    -- the widest comes first, and only the first of the widest can
    have hle : p.width ≤ q.width := by
      obtain rfl | hp := List.mem_cons.1 (hperm.symm.subset (by simp : p ∈ before ++ p :: after))
      · exact le_rfl
      · exact (List.pairwise_cons.1 hsorted).1 p hp
    have hq : q.width = p.width := (hwidest q (hperm.subset List.mem_cons_self)).antisymm hle
    rw [List.filter_cons_of_pos (by simpa using hq)] at hfilter
    exact ⟨rest, by rw [(List.cons.inj hfilter).1]⟩

theorem Factors.of_perm (h : Factors ps s row) (hp : ps.Perm ps') : Factors ps' s row where
  sources := h.sources
  mem_of_hole p hhole := hp.subset (h.mem_of_hole p hhole)
  literals l hl := ⟨(h.literals l hl).1, fun p hmem => (h.literals l hl).2 p (hp.symm.subset hmem)⟩
  separated := h.separated

end Text

namespace Writing

variable {function template : String} {strictness : Strictness} {m : Fields Value} {v : Value}
  {ps : List Text.Placeholder} {p : Text.Placeholder}

/-- The places that parameters have in a text. One without a name has none. -/
def placeholders (m : Fields Value) : List Text.Placeholder :=
  (m.filterMap fun e => e.2.plain?.map fun text => ⟨e.1.toList, text.toList⟩).filter
    fun p => !p.name.isEmpty

def IsLongest (m : Fields Value) (name : String) : Prop :=
  ∃ before v after, m = before ++ (name, v) :: after ∧
    (∀ e ∈ before, e.1.utf8ByteSize < name.utf8ByteSize) ∧
    ∀ e ∈ after, e.1.utf8ByteSize ≤ name.utf8ByteSize

theorem placeholders_of_params (h : params function strictness template m = .ok ps) :
    ps = placeholders m ∧ ∀ e ∈ m, ∃ text, e.2.plain? = some text := by
  obtain ⟨all, hall, rfl⟩ := Run.exists_of_map_ok h
  rw [placeholders]
  clear h
  rw [Run.mapM_eq_ok_iff] at hall
  induction hall with
  | nil => exact ⟨rfl, by simp⟩
  | cons hp _ ih =>
    obtain ⟨text, htext, rfl⟩ := exists_of_param hp
    refine ⟨?_, List.forall_mem_cons.2 ⟨⟨text, htext⟩, ih.2⟩⟩
    rw [List.filterMap_cons_some (by rw [htext]; rfl), List.filter_cons, List.filter_cons, ih.1]

theorem placeholders_append_cons {before after : Fields Value} {name text : String}
    (hname : name ≠ "") (hv : v.plain? = some text) :
    placeholders (before ++ (name, v) :: after) =
      placeholders before ++ ⟨name.toList, text.toList⟩ :: placeholders after := by
  rw [placeholders, List.filterMap_append, List.filterMap_cons_some (by rw [hv]; rfl),
    List.filter_append, List.filter_cons_of_pos (by simpa using hname)]
  rfl

theorem exists_of_mem_placeholders (h : p ∈ placeholders m) :
    p.name ≠ [] ∧ ∃ e ∈ m, p.width = e.1.utf8ByteSize := by
  obtain ⟨hp, hne⟩ := List.mem_filter.1 h
  obtain ⟨e, he, hp⟩ := List.mem_filterMap.1 hp
  obtain ⟨text, -, rfl⟩ := Option.map_eq_some_iff.1 hp
  exact ⟨by simpa using hne, e, he, by rw [Text.Placeholder.width_eq, String.ofList_toList]⟩

theorem sort_placeholders {name : String} (hplain : ∀ e ∈ m, ∃ text, e.2.plain? = some text)
    (h : IsLongest m name) (hname : name ≠ "") :
    ∃ p rest, Text.Placeholder.sort (placeholders m) = p :: rest ∧ p.name = name.toList := by
  obtain ⟨before, value, after, rfl, hbefore, hafter⟩ := h
  obtain ⟨text, htext⟩ := hplain (name, value) (by simp)
  have hwidth : Text.Placeholder.width ⟨name.toList, text.toList⟩ = name.utf8ByteSize := by
    rw [Text.Placeholder.width_eq, String.ofList_toList]
  have hwider : ∀ q ∈ placeholders before,
      q.width < Text.Placeholder.width ⟨name.toList, text.toList⟩ := fun q hq => by
    obtain ⟨-, e, he, hq⟩ := exists_of_mem_placeholders hq
    exact hq ▸ hwidth ▸ hbefore e he
  have hwide : ∀ q ∈ placeholders after,
      q.width ≤ Text.Placeholder.width ⟨name.toList, text.toList⟩ := fun q hq => by
    obtain ⟨-, e, he, hq⟩ := exists_of_mem_placeholders hq
    exact hq ▸ hwidth ▸ hafter e he
  obtain ⟨rest, hrest⟩ := Text.Placeholder.sort_append_cons hwider hwide
  exact ⟨_, rest, placeholders_append_cons hname htext ▸ hrest, rfl⟩

/-- A text that parameters are written into, segment by segment. What is met of the longest name
from left to right is in the row. -/
structure InSegments (m : Fields Value) (template : String) (row : List Text.Segment)
    (written : String) : Prop where
  factors : Text.Factors (placeholders m) template.toList row
  images : written.toList = row.flatMap Text.Segment.image
  longest : ∀ name, IsLongest m name → name ≠ "" → ∀ before after,
    Text.Met name.toList template.toList before after →
      ∃ l p r, row = l ++ .hole p :: r ∧ p.name = name.toList ∧
        l.flatMap Text.Segment.source = before ∧ r.flatMap Text.Segment.source = after

theorem inSegments_of_replace (h : replace function strictness template (.map m) = .ok v) :
    ∃ row written, v = .text written ∧ InSegments m template row written := by
  rw [replace_map] at h
  obtain ⟨ps, hps, rfl⟩ := Run.exists_of_map_ok h
  obtain ⟨rfl, hplain⟩ := placeholders_of_params hps
  have hperm : (Text.Placeholder.sort (placeholders m)).Perm (placeholders m) :=
    List.mergeSort_perm ..
  have hnames : ∀ p ∈ Text.Placeholder.sort (placeholders m), p.name ≠ [] :=
    fun p hp => (exists_of_mem_placeholders (hperm.subset hp)).1
  refine ⟨Text.segments (Text.Placeholder.sort (placeholders m)) template.toList, _, rfl,
    (Text.factors_segments hnames _).of_perm hperm, ?_, ?_⟩
  · rw [Text.flatMap_image_segments, String.toList_ofList]
  intro name hlongest hname before after hmet
  obtain ⟨p, rest, hsort, hp⟩ := sort_placeholders hplain hlongest hname
  rw [hsort] at hnames ⊢
  obtain ⟨l, r, hrow, hl, hr⟩ := Text.segments_of_met hnames (hp ▸ hmet)
  exact ⟨l, p, r, hrow, hp, hl, hr⟩

end Writing

namespace Evaluation

inductive Replaces : Intrinsic → Snippet → Strictness → (template params : Snippet) → Prop
  | list {params template} :
    Replaces .replaceList (.list [params, template]) .lenient template params
  | map {strictness fields template params} :
    Fields.get? fields "template" = some template → Fields.get? fields "params" = some params →
      Replaces (.replaceMap strictness) (.map fields) strictness template params

end Evaluation

namespace Stack

open Evaluation (Replaces Site operand arguments)

variable {stack : Stack} {c : Call} {args template params : Snippet} {strictness : Strictness}
  {v : Value}

theorem replaceIn_run (site : Site) (strictness : Strictness) :
    (site.replaceIn strictness (operand stack template) (operand stack params)).run stack.truthOf =
      (do
        let s ← Writing.text site.name "template" (← stack.value template)
        Writing.replace site.name strictness s (← stack.value params)) := by
  simp only [Site.replaceIn, Inquiry.run_bind, operand_run]
  rfl

theorem value_replacement (hown : c.stack = stack.id)
    (h : Replaces c.fn args strictness template params) :
    stack.value (.call c args) = (do
      let s ← Writing.text c.name "template" (← stack.value template)
      Writing.replace c.name strictness s (← stack.value params)) := by
  rw [value_own hown]
  generalize c.fn = fn at h
  cases h with
  | list =>
    rw [Site.value, Site.replaceList, arguments_items]
    exact replaceIn_run _ _
  | map htemplate hparams =>
    rw [Site.value, Site.replaceMap, arguments_field?, arguments_field?, htemplate, hparams]
    exact replaceIn_run _ _

theorem exists_replaces (hfn : c.fn = .replaceList ∨ ∃ strictness, c.fn = .replaceMap strictness)
    (h : stack.value (.call c args) = .ok v) :
    c.stack = stack.id ∧ ∃ strictness template params,
      Replaces c.fn args strictness template params := by
  rw [value_call] at h
  obtain ⟨_, hcheck, h⟩ := Run.exists_of_bind_ok h
  have hown : c.stack = stack.id := by
    by_contra hne
    rw [checkOwn, if_neg hne] at hcheck
    cases hcheck
  refine ⟨hown, ?_⟩
  obtain hfn | ⟨strictness, hfn⟩ := hfn
  · rw [hfn, Site.value, Site.replaceList] at h
    rw [hfn]
    cases args with
    | list items =>
      rw [arguments_items] at h
      match items, h with
      | [_, _], _ => exact ⟨_, _, _, .list⟩
      | [], h | [_], h | _ :: _ :: _ :: _, h => cases h
    | _ => cases h
  · rw [hfn, Site.value, Site.replaceMap] at h
    rw [hfn]
    cases args with
    | map fields =>
      rw [arguments_field?, arguments_field?] at h
      cases hparams : Fields.get? fields "params" with
      | none => rw [hparams] at h; cases h
      | some params =>
        cases htemplate : Fields.get? fields "template" with
        | none => rw [hparams, htemplate] at h; cases h
        | some template => exact ⟨_, _, _, .map htemplate hparams⟩
    | _ => cases h

/-- Whatever parameters are written into a text comes out segment by segment: each is a literal,
which stays as it is, or the place of a parameter, where the text of that parameter is written. -/
theorem replacement_in_segments
    (hfn : c.fn = .replaceList ∨ ∃ strictness, c.fn = .replaceMap strictness)
    (h : stack.value (.call c args) = .ok v) :
    ∃ strictness template params s m row written,
      Replaces c.fn args strictness template params ∧
      stack.value template = .ok (.text s) ∧ stack.value params = .ok (.map m) ∧
      v = .text written ∧ Writing.InSegments m s row written := by
  obtain ⟨hown, strictness, template, params, hargs⟩ := exists_replaces hfn h
  rw [value_replacement hown hargs] at h
  obtain ⟨t, ht, h⟩ := Run.exists_of_bind_ok h
  obtain ⟨s, hs, h⟩ := Run.exists_of_bind_ok h
  obtain ⟨p, hp, h⟩ := Run.exists_of_bind_ok h
  have htext : t = .text s := by
    cases t with
    | scalar scalar => cases scalar <;> cases hs; rfl
    | _ => cases hs
  cases p with
  | map m =>
    obtain ⟨row, written, hv, hrow⟩ := Writing.inSegments_of_replace h
    exact ⟨strictness, template, params, s, m, row, written, hargs, htext ▸ ht, hp, hv, hrow⟩
  | _ => cases h

/-- What is written for one name is not searched for the other, and the longer name comes first. -/
theorem replacement_in_segments_of_names :
    ∃ t stack c args,
      Template.ofValue (.map [("heat_template_version", .text "2016-10-14")]) = .ok t ∧
      make ⟨"s"⟩ "s" t [] (StaticResources.toResources []) = .ok stack ∧
      t.snippet .ordinary stack.id (.map [("str_replace", .map [("template", .text "aba"),
        ("params", .map [("a", .text "ab"), ("ab", .text "<a>")])])]) = .ok (.call c args) ∧
      c.fn = .replaceMap .lenient ∧ stack.value (.call c args) = .ok (.text "<a>ab") ∧
      ∃ s m row, Writing.InSegments m s row "<a>ab" := by
  let a : Text.Placeholder := ⟨"a".toList, "ab".toList⟩
  let ab : Text.Placeholder := ⟨"ab".toList, "<a>".toList⟩
  have hsort : Text.Placeholder.sort [a, ab] = [ab, a] := by
    obtain ⟨rest, hrest⟩ : ∃ rest, Text.Placeholder.sort ([a] ++ ab :: []) = ab :: rest :=
      Text.Placeholder.sort_append_cons (List.forall_mem_singleton.2 (by decide)) (by simp)
    have hperm : (ab :: rest).Perm [a, ab] := hrest ▸ List.mergeSort_perm ..
    rw [List.perm_singleton.1 (hperm.trans (.swap ab a [])).cons_inv] at hrest
    exact hrest
  have hwritten : Text.substitute (Text.Placeholder.sort [a, ab]) "aba".toList =
      "<a>ab".toList := by
    rw [hsort]
    rfl
  have hvalue {stack : Stack} {c : Call} (hown : c.stack = stack.id)
      (hfn : c.fn = .replaceMap .lenient) {args : Snippet} (hargs : args = .map [
        ("template", .text "aba"), ("params", .map [("a", .text "ab"), ("ab", .text "<a>")])]) :
      stack.value (.call c args) = .ok (.text "<a>ab") ∧
        ∃ s m row, Writing.InSegments m s row "<a>ab" := by
    have hreplaces : Replaces c.fn args .lenient (.text "aba")
        (.map [("a", .text "ab"), ("ab", .text "<a>")]) := by
      rw [hfn, hargs]
      exact .map rfl rfl
    have hv : stack.value (.call c args) = .ok (.text "<a>ab") := by
      rw [value_replacement hown hreplaces, value_of_isPlain _ _ rfl, value_of_isPlain _ _ rfl]
      exact congrArg (fun s => Except.ok (Value.text (String.ofList s))) hwritten
    obtain ⟨_, _, _, s, m, row, _, -, -, -, ⟨⟩, h⟩ := replacement_in_segments (.inr ⟨_, hfn⟩) hv
    exact ⟨hv, s, m, row, h⟩
  exact ⟨_, _, _, _, rfl, rfl, rfl, rfl, hvalue rfl rfl rfl⟩

end Stack

end Orchestration
