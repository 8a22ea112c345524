import Orchestration.Proofs.Functions.Loops
import Orchestration.Proofs.Text.InTurn

namespace Orchestration

namespace Loop

variable {ps : List Text.Placeholder}

/-- All places of placeholders are written at once, and nothing else changes. -/
def Inserted (ps : List Text.Placeholder) (s written : String) : Prop :=
  ∃ row, Text.Factors ps s.toList row ∧ written.toList = row.flatMap Text.Segment.image

/-- No value overlaps the name of a later placeholder. -/
def Unfound (ps : List Text.Placeholder) : Prop :=
  ps.Pairwise fun p later => Text.Apart p.text later.name

instance (ps : List Text.Placeholder) : Decidable (Unfound ps) :=
  inferInstanceAs (Decidable (ps.Pairwise _))

def Combines (ranges : Ranges) (ps : List Text.Placeholder) : Prop :=
  List.Forall₂ (fun e p => p.name = e.1.toList ∧ ∃ s ∈ e.2, p.text = s.plain.toList) ranges ps

theorem inserted_write (hnames : ∀ p ∈ ps, p.name ≠ []) (h : Unfound ps) (s : String) :
    Inserted ps s (write ps s) := by
  refine ⟨Text.segments ps s.toList, Text.factors_segments hnames _, ?_⟩
  rw [write, String.toList_ofList, Text.replaceInTurn_eq_substitute hnames h,
    Text.flatMap_image_segments]

theorem Ranges.combines_choice {ranges : Ranges} {is : List Nat}
    (h : List.Forall₂ (· < ·) is ranges.lengths) : Combines ranges (ranges.choice is) := by
  induction ranges generalizing is with
  | nil =>
    cases h
    exact .nil
  | cons e ranges ih =>
    cases h with
    | @cons i _ is _ hi h =>
      refine .cons ⟨rfl, e.2[i], List.getElem_mem hi, ?_⟩ (ih h)
      dsimp only
      rw [List.getD_eq_getElem _ _ hi]

theorem Combines.names {ranges : Ranges} (h : Combines ranges ps)
    (hnames : ∀ e ∈ ranges, e.1 ≠ "") : ∀ p ∈ ps, p.name ≠ [] := by
  induction h with
  | nil => nofun
  | cons hp _ ih =>
    obtain ⟨he, hrest⟩ := List.forall_mem_cons.1 hnames
    exact List.forall_mem_cons.2 ⟨by simpa [hp.1] using he, ih hrest⟩

theorem Combines.eq_of_single (choices : Fields Scalar)
    (h : Combines (choices.map fun e => (e.1, [e.2])) ps) :
    ps = choices.map fun e => ⟨e.1.toList, e.2.plain.toList⟩ := by
  induction choices generalizing ps with
  | nil =>
    cases h
    rfl
  | cons e choices ih =>
    cases h with
    | @cons _ p _ ps hp h =>
      obtain ⟨name, text⟩ := p
      obtain ⟨rfl, s, hs, rfl⟩ := hp
      cases List.mem_singleton.1 hs
      exact congrArg (_ :: ·) (ih h)

theorem Ranges.exists_of_copies {function : String} {ranges : Ranges} {template v : Value}
    {permutations : Bool} (h : copies function ranges.toFields template permutations = .ok v) :
    ∃ chosen : List (List Text.Placeholder),
      v = .list (chosen.map fun ps => copy ps template) ∧ ∀ ps ∈ chosen, Combines ranges ps := by
  rw [copies_toFields] at h
  split at h
  · cases h
    refine ⟨(rows ranges.lengths).map ranges.choice, by rw [List.map_map]; rfl, ?_⟩
    exact List.forall_mem_map.2 fun is his => combines_choice (mem_rows his)
  · split at h
    case isTrue hsame =>
      cases h
      have hrow (i : Nat) (hi : i < ranges.lengths.headD 0) :
          List.Forall₂ (· < ·) (List.replicate ranges.lengths.length i) ranges.lengths := by
        refine List.forall₂_iff_get.2 ⟨List.length_replicate, fun j _ hj => ?_⟩
        rw [List.get_eq_getElem, List.getElem_replicate, hsame _ (List.get_mem _ _)]
        exact hi
      refine ⟨(List.range (ranges.lengths.headD 0)).map fun i =>
        ranges.choice (List.replicate ranges.lengths.length i), by rw [List.map_map]; rfl, ?_⟩
      exact List.forall_mem_map.2 fun i hi => combines_choice (hrow i (List.mem_range.1 hi))
    case isFalse => cases h

end Loop

namespace Stack

variable {stack : Stack} {c : Call} {fields : Fields Snippet} {template v : Value}
  {permutations : Bool}

/-- In the copy for a combination none of whose values overlaps the name of a later placeholder,
every text is written at once. -/
theorem loop_verbatim {ranges : Loop.Ranges}
    (h : stack.Repeats c fields ranges.toFields template permutations)
    (hnames : ∀ e ∈ ranges, e.1 ≠ "") (hv : stack.value (.call c (.map fields)) = .ok v) :
    ∃ chosen : List (List Text.Placeholder),
      v = .list (chosen.map fun ps => Loop.copy ps template) ∧
      ∀ ps ∈ chosen, Loop.Combines ranges ps ∧
        (Loop.Unfound ps → ∀ s, Loop.Inserted ps s (Loop.write ps s)) := by
  rw [value_loop h] at hv
  obtain ⟨chosen, hchosen, hcombines⟩ := Loop.Ranges.exists_of_copies hv
  exact ⟨chosen, hchosen, fun ps hps =>
    ⟨hcombines ps hps, Loop.inserted_write ((hcombines ps hps).names hnames)⟩⟩

theorem loop_verbatim_of_earlier :
    let ranges : Loop.Ranges := [("%a%", [.integer 1]), ("%b%", [.text "%a%"])]
    ∃ t stack c fields,
      Template.ofValue (.map [("heat_template_version", .text "2016-10-14")]) = .ok t ∧
      make ⟨"s"⟩ "s" t [] (StaticResources.toResources []) = .ok stack ∧
      t.snippet .ordinary stack.id (.map [("repeat", .map [("for_each", .map ranges.toFields),
        ("template", .text "%a%-%b%")])]) = .ok (.call c (.map fields)) ∧
      stack.Repeats c fields ranges.toFields (.text "%a%-%b%") true ∧
      stack.value (.call c (.map fields)) = .ok (.texts ["1-%a%"]) ∧
      Loop.Inserted [⟨"%a%".toList, "1".toList⟩, ⟨"%b%".toList, "%a%".toList⟩]
        "%a%-%b%" "1-%a%" := by
  intro ranges
  have hvalue {stack : Stack} {c : Call} {fields : Fields Snippet}
      (h : stack.Repeats c fields ranges.toFields (.text "%a%-%b%") true) :
      stack.value (.call c (.map fields)) = .ok (.texts ["1-%a%"]) := by
    rw [value_loop h]
    rfl
  have hinserted {stack : Stack} {c : Call} {fields : Fields Snippet}
      (h : stack.Repeats c fields ranges.toFields (.text "%a%-%b%") true) :
      Loop.Inserted [⟨"%a%".toList, "1".toList⟩, ⟨"%b%".toList, "%a%".toList⟩]
        "%a%-%b%" "1-%a%" := by
    obtain ⟨chosen, hchosen, hinserted⟩ := loop_verbatim h (by decide) (hvalue h)
    obtain ⟨ps, rfl⟩ := List.length_eq_one_iff.1
      (show chosen.length = 1 by simpa using congrArg List.length (Value.list.inj hchosen).symm)
    obtain ⟨hcombines, hunfound⟩ := hinserted ps List.mem_cons_self
    obtain rfl := hcombines.eq_of_single [("%a%", .integer 1), ("%b%", .text "%a%")]
    exact hunfound (by decide) "%a%-%b%"
  refine ⟨_, _, _, _, rfl, rfl, rfl, ?repeats, hvalue ?repeats, hinserted ?repeats⟩
  exact ⟨rfl, ⟨_, rfl⟩, ⟨_, rfl, value_of_isPlain _ _ rfl⟩, ⟨_, rfl, value_of_isPlain _ _ rfl⟩,
    .inl ⟨rfl, rfl⟩⟩

/-- A value is searched for a later placeholder, which stands in it. -/
theorem loop_searches_value :
    let ranges : Loop.Ranges := [("%a%", [.text "%b%"]), ("%b%", [.text "y"])]
    ∃ t stack c fields,
      Template.ofValue (.map [("heat_template_version", .text "2016-10-14")]) = .ok t ∧
      make ⟨"s"⟩ "s" t [] (StaticResources.toResources []) = .ok stack ∧
      t.snippet .ordinary stack.id (.map [("repeat", .map [("for_each", .map ranges.toFields),
        ("template", .text "%a%")])]) = .ok (.call c (.map fields)) ∧
      stack.Repeats c fields ranges.toFields (.text "%a%") true ∧
      stack.value (.call c (.map fields)) = .ok (.texts ["y"]) ∧
      ∀ ps, Loop.Combines ranges ps → ¬Loop.Inserted ps "%a%" "y" := by
  intro ranges
  have hvalue {stack : Stack} {c : Call} {fields : Fields Snippet}
      (h : stack.Repeats c fields ranges.toFields (.text "%a%") true) :
      stack.value (.call c (.map fields)) = .ok (.texts ["y"]) := by
    rw [value_loop h]
    rfl
  have hsearched : ∀ ps, Loop.Combines ranges ps → ¬Loop.Inserted ps "%a%" "y" := by
    rintro ps hcombines ⟨row, hrow, himage⟩
    obtain rfl := hcombines.eq_of_single [("%a%", .text "%b%"), ("%b%", .text "y")]
    obtain ⟨q, hq⟩ := hrow.exists_hole List.mem_cons_self (by decide) (by decide)
    have hname : q.name <:+: "%a%".toList :=
      hrow.sources ▸ Text.infix_flatMap Text.Segment.source hq
    have htext : q.text <:+: "y".toList := himage ▸ Text.infix_flatMap Text.Segment.image hq
    -- only the first placeholder stands in the template, and its value does not come out
    obtain rfl | hq := List.mem_cons.1 (hrow.mem_of_hole q hq)
    · exact absurd htext (by decide)
    · cases List.mem_singleton.1 hq
      exact absurd hname (by decide)
  refine ⟨_, _, _, _, rfl, rfl, rfl, ?repeats, hvalue ?repeats, hsearched⟩
  exact ⟨rfl, ⟨_, rfl⟩, ⟨_, rfl, value_of_isPlain _ _ rfl⟩, ⟨_, rfl, value_of_isPlain _ _ rfl⟩,
    .inl ⟨rfl, rfl⟩⟩

end Stack

end Orchestration
