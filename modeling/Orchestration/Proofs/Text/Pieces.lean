import Orchestration.Proofs.Text.Segments

namespace Orchestration.Text

variable {d s l r p : List Char} {c : Char} {ps qs : List (List Char)}

theorem after?_eq_some_iff : after? p s = some r ↔ s = p ++ r := by
  induction p generalizing s with
  | nil => exact ⟨Option.some.inj, congrArg some⟩
  | cons b bs ih =>
    cases s with
    | nil => exact ⟨nofun, nofun⟩
    | cons c cs =>
      rw [after?, List.cons_append, List.cons.injEq]
      split
      · next hbc => rw [ih, eq_comm (a := c), and_iff_right hbc]
      · next hbc => exact ⟨nofun, fun h => absurd h.1.symm hbc⟩

theorem splitOnce?_append (h : c ∉ l) (r : List Char) :
    splitOnce? c (l ++ c :: r) = some (l, r) := by
  induction l with
  | nil => exact if_pos rfl
  | cons b l ih =>
    obtain ⟨hb, hl⟩ := not_or.1 (mt List.mem_cons.2 h)
    rw [List.cons_append, splitOnce?, if_neg (Ne.symm hb), ih hl]
    rfl

theorem of_splitOnce? (h : splitOnce? c s = some (l, r)) : s = l ++ c :: r ∧ c ∉ l := by
  induction s generalizing l with
  | nil => cases h
  | cons b s ih =>
    rw [splitOnce?] at h
    split at h
    · next hb =>
      cases h
      exact ⟨congrArg (· :: r) hb, List.not_mem_nil⟩
    · next hb =>
      obtain ⟨⟨l, _⟩, hrest, ⟨⟩⟩ := Option.map_eq_some_iff.1 h
      obtain ⟨rfl, hl⟩ := ih hrest
      exact ⟨rfl, List.not_mem_cons_of_ne_of_not_mem (Ne.symm hb) hl⟩

theorem splitOnce?_eq_some_iff : splitOnce? c s = some (l, r) ↔ s = l ++ c :: r ∧ c ∉ l :=
  ⟨of_splitOnce?, fun ⟨hs, hl⟩ => hs ▸ splitOnce?_append hl r⟩

theorem Cuts.unique (h : Cuts d s ps) (h' : Cuts d s qs) : ps = qs := by
  induction h generalizing qs with
  | last hnone =>
    cases h' with
    | last => rfl
    | @next before after => exact absurd ⟨before, after, by rw [List.append_assoc]⟩ hnone
  | @next before after ps hleft _ ih =>
    generalize hs : before ++ (d ++ after) = s at h'
    cases h' with
    | last hnone => exact absurd ⟨before, after, by rw [List.append_assoc, hs]⟩ hnone
    | next hleft' hafter' =>
      obtain ⟨rfl, rfl⟩ := hleft.unique hleft' hs
      rw [ih hafter']

theorem leftmost_singleton (h : c ∉ l) (r : List Char) : Leftmost [c] l r := by
  intro x y hxy
  by_contra hlt
  have hget := congrArg (·[x.length]?) hxy
  simp only [List.getElem?_append_right le_rfl, List.getElem?_append_left (Nat.lt_of_not_le hlt),
    Nat.sub_self] at hget
  exact h (List.mem_of_getElem? hget.symm)

theorem cuts_intercalate (hne : ps ≠ []) (h : ∀ p ∈ ps, c ∉ p) :
    Cuts [c] ([c].intercalate ps) ps := by
  induction ps with
  | nil => exact absurd rfl hne
  | cons p ps ih =>
    obtain ⟨hp, hps⟩ := List.forall_mem_cons.1 h
    cases ps with
    | nil =>
      rw [List.intercalate_singleton]
      exact .last fun hfound => hp (hfound.subset (List.mem_singleton_self c))
    | cons q ps =>
      rw [List.intercalate_cons_cons, List.append_assoc]
      exact .next (leftmost_singleton hp _) (ih (List.cons_ne_nil _ _) hps)

end Orchestration.Text
