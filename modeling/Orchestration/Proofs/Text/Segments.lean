import Mathlib.Data.List.Chain
import Mathlib.Data.List.Infix
import Orchestration.Proofs.Text.Substitution

namespace Orchestration.Text

/-- A literal stands for itself, the place of a placeholder for its text. -/
inductive Segment
  | literal (s : List Char)
  | hole (p : Placeholder)

namespace Segment

def source : Segment → List Char
  | literal s => s
  | hole p => p.name

def image : Segment → List Char
  | literal s => s
  | hole p => p.text

def IsHole : Segment → Prop
  | literal _ => False
  | hole _ => True

end Segment

/-- A text in segments. No name is left in a literal, and no two literals are neighbours. -/
structure Factors (ps : List Placeholder) (s : List Char) (segments : List Segment) : Prop where
  sources : segments.flatMap Segment.source = s
  mem_of_hole : ∀ p, .hole p ∈ segments → p ∈ ps
  literals : ∀ l, .literal l ∈ segments → l ≠ [] ∧ ∀ p ∈ ps, ¬p.name <:+: l
  separated : segments.IsChain fun a b => a.IsHole ∨ b.IsHole

/-- The occurrence between two sides has no other one that starts further left. -/
def Leftmost (d before after : List Char) : Prop :=
  ∀ x y, x ++ (d ++ y) = before ++ (d ++ after) → before.length ≤ x.length

/-- The occurrences that are met from left to right, none of which overlap, and their two sides. -/
inductive Met (d : List Char) : (s before after : List Char) → Prop
  | first {before after} :
    Leftmost d before after → Met d (before ++ (d ++ after)) before after
  | later {passed s before after} :
    Leftmost d passed s → Met d s before after →
      Met d (passed ++ (d ++ s)) (passed ++ (d ++ before)) after

inductive Cuts (d : List Char) : List Char → List (List Char) → Prop
  | last {s} : ¬d <:+: s → Cuts d s [s]
  | next {before after ps} :
    Leftmost d before after → Cuts d after ps → Cuts d (before ++ (d ++ after)) (before :: ps)

section

variable {d s before after : List Char} {c : Char} {ps : List (List Char)}

theorem Leftmost.cons (h : Leftmost d before after)
    (hstart : ¬d <+: c :: (before ++ (d ++ after))) : Leftmost d (c :: before) after := by
  intro x y hxy
  cases x with
  | nil => exact absurd ⟨y, hxy⟩ hstart
  | cons b x => exact Nat.succ_le_succ (h x y (List.cons.inj hxy).2)

theorem Leftmost.unique {before' after' : List Char} (h : Leftmost d before after)
    (h' : Leftmost d before' after')
    (heq : before ++ (d ++ after) = before' ++ (d ++ after')) :
    before = before' ∧ after = after' := by
  have hlength : before.length = before'.length :=
    Nat.le_antisymm (h before' after' heq.symm) (h' before after heq)
  obtain ⟨hbefore, hrest⟩ := List.append_inj heq hlength
  exact ⟨hbefore, List.append_cancel_left hrest⟩

theorem Leftmost.not_found (h : Leftmost d before after) (hd : d ≠ []) : ¬d <:+: before := by
  rintro ⟨x, y, rfl⟩
  have hle := h x (y ++ (d ++ after)) (by simp)
  have hpos := List.length_pos_iff.2 hd
  simp only [List.length_append] at hle
  omega

theorem Cuts.cons (h : Cuts d s ps) (hstart : ¬d <+: c :: s) :
    Cuts d (c :: s) (pushFront c ps) := by
  cases h with
  | last hnone => exact .last fun hfound => (List.infix_cons_iff.1 hfound).elim hstart hnone
  | next hleft hafter => exact .next (hleft.cons hstart) hafter

theorem Cuts.ne_nil (h : Cuts d s ps) : ps ≠ [] := by
  cases h <;> exact List.cons_ne_nil _ _

theorem cut_skip (skip : Nat) (s : List Char) : cut d skip s = cut d 0 (s.drop skip) := by
  induction skip generalizing s with
  | zero => rfl
  | succ skip ih =>
    cases s with
    | nil => rfl
    | cons c cs => exact ih cs

theorem cut_append (hd : d ≠ []) (s : List Char) : cut d 0 (d ++ s) = [] :: cut d 0 s := by
  obtain ⟨c, cs, hc⟩ := List.exists_cons_of_ne_nil hd
  have hstart : d.isPrefixOf (c :: (cs ++ s)) = true :=
    List.isPrefixOf_iff_prefix.2 ⟨s, by rw [hc, List.cons_append]⟩
  have hdrop : (cs ++ s).drop (d.length - 1) = s := by simp [hc]
  conv_lhs => rw [hc, List.cons_append, ← hc]
  rw [cut, if_pos hstart, cut_skip, hdrop]

theorem cuts_cut (hd : d ≠ []) (s : List Char) : Cuts d s (cut d 0 s) := by
  induction hn : s.length using Nat.strongRecOn generalizing s with
  | ind n ih =>
    by_cases hstart : d <+: s
    · obtain ⟨rest, rfl⟩ := hstart
      have hpos := List.length_pos_iff.2 hd
      rw [List.length_append] at hn
      rw [cut_append hd]
      have hleft : Leftmost d [] rest := fun _ _ _ => Nat.zero_le _
      exact .next hleft (ih _ (by omega) rest rfl)
    · cases s with
      | nil => exact .last fun h => hd (List.infix_nil.1 h)
      | cons c cs =>
        rw [List.length_cons] at hn
        rw [cut, if_neg (by simpa using hstart)]
        exact (ih cs.length (by omega) cs rfl).cons hstart

theorem cuts_pieces (hd : d ≠ []) (s : List Char) : Cuts d s (pieces d s) := by
  rw [pieces, if_neg (by simpa using hd)]
  exact cuts_cut hd s

theorem Cuts.intercalate_eq (h : Cuts d s ps) : d.intercalate ps = s := by
  induction h with
  | last => simp
  | next _ hafter ih => rw [List.intercalate_cons_of_ne_nil hafter.ne_nil, ih, List.append_assoc]

theorem Cuts.not_found (h : Cuts d s ps) (hd : d ≠ []) : ∀ piece ∈ ps, ¬d <:+: piece := by
  induction h with
  | last hnone => simpa using hnone
  | next hleft _ ih => exact List.forall_mem_cons.2 ⟨hleft.not_found hd, ih⟩

theorem Cuts.exists_of_met (h : Cuts d s ps) (hmet : Met d s before after) :
    ∃ l r, ps = l ++ r ∧ l ≠ [] ∧ r ≠ [] ∧ d.intercalate l = before ∧ d.intercalate r = after := by
  induction hmet generalizing ps with
  | @first before after hleft =>
    generalize hs : before ++ (d ++ after) = s at h
    cases h with
    | last hnone => exact absurd ⟨before, after, by rw [← hs, List.append_assoc]⟩ hnone
    | next hleft' hafter =>
      obtain ⟨rfl, rfl⟩ := hleft.unique hleft' hs
      exact ⟨[before], _, rfl, List.cons_ne_nil _ _, hafter.ne_nil, by simp, hafter.intercalate_eq⟩
  | @later passed s before after hleft _ ih =>
    generalize hs : passed ++ (d ++ s) = whole at h
    cases h with
    | last hnone => exact absurd ⟨passed, s, by rw [← hs, List.append_assoc]⟩ hnone
    | next hleft' hafter =>
      obtain ⟨rfl, rfl⟩ := hleft.unique hleft' hs
      obtain ⟨l, r, rfl, hl, hr, hbefore, hr'⟩ := ih hafter
      refine ⟨passed :: l, r, rfl, List.cons_ne_nil _ _, hr, ?_, hr'⟩
      rw [List.intercalate_cons_of_ne_nil hl, hbefore, List.append_assoc]

end

section

variable {α β : Type} {sep : List α}

theorem infix_flatMap (f : α → List β) {a : α} {l : List α} (h : a ∈ l) : f a <:+: l.flatMap f := by
  rw [List.flatMap_def]
  exact List.infix_of_mem_flatten (List.mem_map_of_mem h)

theorem flatMap_intercalate (f : α → List β) (sep : List α) (xs : List (List α)) :
    (sep.intercalate xs).flatMap f = (sep.flatMap f).intercalate (xs.map (·.flatMap f)) := by
  induction xs with
  | nil => simp
  | cons x xs ih =>
    cases xs with
    | nil => simp
    | cons y ys => simp only [List.intercalate_cons_cons, List.flatMap_append, ih, List.map_cons]

theorem intercalate_append {xs ys : List (List α)} (hx : xs ≠ []) (hy : ys ≠ []) :
    sep.intercalate (xs ++ ys) = sep.intercalate xs ++ (sep ++ sep.intercalate ys) := by
  induction xs with
  | nil => exact absurd rfl hx
  | cons x xs ih =>
    cases xs with
    | nil => simp [List.intercalate_cons_of_ne_nil hy]
    | cons x' xs =>
      rw [List.cons_append, List.cons_append, List.intercalate_cons_cons, ← List.cons_append,
        ih (List.cons_ne_nil _ _), List.intercalate_cons_cons]
      simp only [List.append_assoc]

theorem mem_intercalate {a : α} {xs : List (List α)} (h : a ∈ sep.intercalate xs) :
    a ∈ sep ∨ ∃ x ∈ xs, a ∈ x := by
  induction xs with
  | nil => simp at h
  | cons x xs ih =>
    cases xs with
    | nil => exact .inr ⟨x, List.mem_singleton_self x, by simpa using h⟩
    | cons x' xs =>
      rw [List.intercalate_cons_cons, List.append_assoc, List.mem_append, List.mem_append] at h
      obtain h | h | h := h
      · exact .inr ⟨x, List.mem_cons_self, h⟩
      · exact .inl h
      · refine (ih h).imp_right ?_
        rintro ⟨y, hy, ha⟩
        exact ⟨y, List.mem_cons_of_mem x hy, ha⟩

theorem isChain_intercalate {R : α → α → Prop} {a : α} (hl : ∀ b, R b a) (hr : ∀ b, R a b)
    {xs : List (List α)} (h : ∀ x ∈ xs, x.IsChain R) : ([a].intercalate xs).IsChain R := by
  induction xs with
  | nil => simp
  | cons x xs ih =>
    obtain ⟨hx, hxs⟩ := List.forall_mem_cons.1 h
    cases xs with
    | nil => simpa using hx
    | cons x' xs =>
      rw [List.intercalate_cons_cons, List.append_assoc]
      refine hx.append (.append (.singleton a) (ih hxs) ?_) ?_
      · rintro b ⟨⟩ c -
        exact hr c
      · rintro b - c ⟨⟩
        exact hl b

end

def segments : List Placeholder → List Char → List Segment
  | [], s => if s.isEmpty then [] else [.literal s]
  | p :: ps, s => [Segment.hole p].intercalate ((pieces p.name s).map (segments ps))

section

variable {p : Placeholder} {ps : List Placeholder} {s before after : List Char}

theorem flatMap_source_segments (h : ∀ p ∈ ps, p.name ≠ []) (s : List Char) :
    (segments ps s).flatMap Segment.source = s := by
  induction ps generalizing s with
  | nil => cases s <;> simp [segments, Segment.source]
  | cons p ps ih =>
    obtain ⟨hp, hps⟩ := List.forall_mem_cons.1 h
    have hpieces : ((pieces p.name s).map (segments ps)).map (·.flatMap Segment.source) =
        pieces p.name s := by
      rw [List.map_map]
      exact List.map_id'' (ih hps) _
    rw [segments, flatMap_intercalate, hpieces, List.flatMap_singleton]
    exact (cuts_pieces hp s).intercalate_eq

theorem flatMap_image_segments (ps : List Placeholder) (s : List Char) :
    (segments ps s).flatMap Segment.image = substitute ps s := by
  induction ps generalizing s with
  | nil => cases s <;> simp [segments, Segment.image]
  | cons p ps ih =>
    have hpieces : ((pieces p.name s).map (segments ps)).map (·.flatMap Segment.image) =
        (pieces p.name s).map (substitute ps) := by
      rw [List.map_map]
      exact List.map_congr_left fun piece _ => ih piece
    rw [segments, flatMap_intercalate, hpieces, List.flatMap_singleton]
    rfl

theorem mem_segments_cons {segment : Segment} (h : segment ∈ segments (p :: ps) s) :
    segment = .hole p ∨ ∃ piece ∈ pieces p.name s, segment ∈ segments ps piece := by
  refine (mem_intercalate h).imp List.mem_singleton.1 ?_
  rintro ⟨_, hrow, hsegment⟩
  obtain ⟨piece, hpiece, rfl⟩ := List.mem_map.1 hrow
  exact ⟨piece, hpiece, hsegment⟩

theorem mem_of_hole_mem_segments {q : Placeholder} (h : .hole q ∈ segments ps s) : q ∈ ps := by
  induction ps generalizing s with
  | nil => cases s <;> simp [segments] at h
  | cons p ps ih =>
    obtain h | ⟨piece, -, h⟩ := mem_segments_cons h
    · cases h
      exact List.mem_cons_self
    · exact List.mem_cons_of_mem p (ih h)

theorem literal_of_mem_segments (h : ∀ p ∈ ps, p.name ≠ []) {l : List Char}
    (hl : .literal l ∈ segments ps s) : l ≠ [] ∧ ∀ p ∈ ps, ¬p.name <:+: l := by
  induction ps generalizing s with
  | nil =>
    cases s with
    | nil => simp [segments] at hl
    | cons c cs =>
      cases List.mem_singleton.1 hl
      simp
  | cons p ps ih =>
    obtain ⟨hp, hps⟩ := List.forall_mem_cons.1 h
    obtain hl | ⟨piece, hpiece, hl⟩ := mem_segments_cons hl
    · cases hl
    · obtain ⟨hne, hrest⟩ := ih hps hl
      refine ⟨hne, List.forall_mem_cons.2 ⟨fun hfound => ?_, hrest⟩⟩
      have hpart : l <:+: piece := by
        have hflat := infix_flatMap Segment.source hl
        rwa [flatMap_source_segments hps] at hflat
      exact (cuts_pieces hp s).not_found hp piece hpiece (hfound.trans hpart)

theorem separated_segments (ps : List Placeholder) (s : List Char) :
    (segments ps s).IsChain fun a b => a.IsHole ∨ b.IsHole := by
  induction ps generalizing s with
  | nil => cases s <;> simp [segments]
  | cons p ps ih =>
    refine isChain_intercalate (fun _ => .inr trivial) (fun _ => .inl trivial) fun row hrow => ?_
    obtain ⟨piece, -, rfl⟩ := List.mem_map.1 hrow
    exact ih piece

theorem factors_segments (h : ∀ p ∈ ps, p.name ≠ []) (s : List Char) :
    Factors ps s (segments ps s) where
  sources := flatMap_source_segments h s
  mem_of_hole _ := mem_of_hole_mem_segments
  literals _ := literal_of_mem_segments h
  separated := separated_segments ps s

theorem Factors.exists_hole {row : List Segment} (h : Factors ps s row) (hp : p ∈ ps) (hne : s ≠ [])
    (hname : p.name <:+: s) : ∃ q, .hole q ∈ row := by
  have hsources := h.sources
  match row, h with
  | [], _ => exact absurd hsources.symm hne
  | .hole q :: _, _ => exact ⟨q, List.mem_cons_self⟩
  | [.literal l], h =>
    obtain rfl : l = s := by simpa [Segment.source] using hsources
    exact absurd hname ((h.literals l List.mem_cons_self).2 p hp)
  | .literal _ :: .hole q :: _, _ => exact ⟨q, List.mem_cons_of_mem _ List.mem_cons_self⟩
  | .literal _ :: .literal _ :: _, h =>
    obtain ⟨hholes, -⟩ := List.isChain_cons_cons.1 h.separated
    exact absurd hholes (by simp [Segment.IsHole])

theorem segments_of_met (h : ∀ q ∈ p :: ps, q.name ≠ []) (hmet : Met p.name s before after) :
    ∃ l r, segments (p :: ps) s = l ++ .hole p :: r ∧
      l.flatMap Segment.source = before ∧ r.flatMap Segment.source = after := by
  obtain ⟨hp, hps⟩ := List.forall_mem_cons.1 h
  obtain ⟨xs, ys, hpieces, hx, hy, rfl, rfl⟩ := (cuts_pieces hp s).exists_of_met hmet
  have hsources (row : List (List Char)) :
      ([Segment.hole p].intercalate (row.map (segments ps))).flatMap Segment.source =
        p.name.intercalate row := by
    rw [flatMap_intercalate, List.flatMap_singleton, List.map_map]
    exact congrArg _ (List.map_id'' (flatMap_source_segments hps) row)
  refine ⟨_, _, ?_, hsources xs, hsources ys⟩
  rw [segments, hpieces, List.map_append,
    intercalate_append (by simpa using hx) (by simpa using hy), List.singleton_append]

end

end Orchestration.Text
