import Orchestration.Proofs.Text.Segments

namespace Orchestration.Text

variable {p q : Placeholder} {ps : List Placeholder} {rest : List Char → List Char}
  {t passed pending s : List Char}

theorem weave_passed (hrest : ∀ x y, rest (x ++ (t ++ y)) = rest x ++ (t ++ rest y)) (skip : Nat) :
    weave ps rest skip (passed ++ (t ++ pending)) s =
      rest passed ++ (t ++ weave ps rest skip pending s) := by
  fun_induction weave ps rest skip pending s with
  | case1 => rw [weave, hrest]
  | case2 _ _ _ _ ih => rw [weave, ih]
  | case3 _ _ _ _ hp => rw [weave, hp, hrest]; simp only [List.append_assoc]
  | case4 _ _ _ hp ih =>
    rw [weave, hp, ← ih]
    simp only [List.append_assoc]

theorem Apart.prefix_left {d x : List Char} (h : Apart t d) (hd : d <+: x ++ (t ++ s)) :
    d <+: x := by
  obtain hx | ⟨u, rfl⟩ := List.prefix_or_prefix_of_prefix hd (List.prefix_append x (t ++ s))
  · exact hx
  · cases u with
    | nil => simp
    | cons c u =>
      have hu : c :: u <+: t ++ s := (List.prefix_append_right_inj x).1 hd
      have hstart := List.prefix_or_prefix_of_prefix (List.prefix_append t s) hu
      exact absurd ⟨x.length, by simp, by rwa [List.drop_left]⟩ h.1

theorem weave_apart (hq : q.name ≠ []) (h : Apart t q.name)
    (hrest : ∀ x y, rest (x ++ (t ++ y)) = rest x ++ (t ++ rest y)) (x : List Char) :
    weave [q] rest 0 passed (x ++ (t ++ s)) =
      weave [q] rest 0 passed x ++ (t ++ weave [q] rest 0 [] s) := by
  induction hn : x.length using Nat.strongRecOn generalizing x passed with
  | ind n ih =>
    by_cases hstart : q.name <+: x ++ (t ++ s)
    · obtain ⟨x, rfl⟩ := h.prefix_left hstart
      have hpos := List.length_pos_iff.2 hq
      rw [List.length_append] at hn
      rw [List.append_assoc, weave_of_find?_eq_some hq (by simp),
        weave_of_find?_eq_some hq (by simp), ih x.length (by omega) x rfl]
      simp only [List.append_assoc]
    · cases x with
      | nil =>
        rw [List.nil_append, weave_append fun _ ho => not_prefix_drop h.2 ho, weave]
        have hpassed : weave [q] rest 0 (passed ++ (t ++ [])) s =
            rest passed ++ (t ++ weave [q] rest 0 [] s) := weave_passed hrest 0
        simpa using hpassed
      | cons c x =>
        have hshort : ¬q.name <+: c :: x := fun hx => hstart (hx.trans (List.prefix_append ..))
        rw [List.length_cons] at hn
        rw [List.cons_append] at hstart ⊢
        rw [weave_of_find?_eq_none (by simpa using hstart),
          weave_of_find?_eq_none (by simpa using hshort), ih x.length (by omega) x rfl]

theorem substitute_append_apart (h : ∀ q ∈ ps, q.name ≠ [] ∧ Apart t q.name) (x y : List Char) :
    substitute ps (x ++ (t ++ y)) = substitute ps x ++ (t ++ substitute ps y) := by
  induction ps generalizing x y with
  | nil => rfl
  | cons q ps ih =>
    obtain ⟨⟨hq, hapart⟩, hps⟩ := List.forall_mem_cons.1 h
    rw [substitute_cons hq, weave_apart hq hapart (ih hps)]

theorem substitute_intercalate (h : ∀ q ∈ ps, q.name ≠ [] ∧ Apart t q.name)
    {xs : List (List Char)} (hxs : xs ≠ []) :
    substitute ps (t.intercalate xs) = t.intercalate (xs.map (substitute ps)) := by
  induction xs with
  | nil => exact absurd rfl hxs
  | cons x xs ih =>
    cases xs with
    | nil => simp
    | cons y xs =>
      have hys : (y :: xs).map (substitute ps) ≠ [] := List.cons_ne_nil _ _
      rw [List.intercalate_cons_cons, List.append_assoc, substitute_append_apart h,
        ih (List.cons_ne_nil _ _), ← List.append_assoc, ← List.intercalate_cons_of_ne_nil hys]
      rfl

/-- Nothing that is written is found again by a later placeholder that it cannot overlap. -/
theorem replaceInTurn_eq_substitute (hnames : ∀ p ∈ ps, p.name ≠ [])
    (h : ps.Pairwise fun p q => Apart p.text q.name) : replaceInTurn ps s = substitute ps s := by
  induction ps generalizing s with
  | nil => rfl
  | cons p ps ih =>
    obtain ⟨hp, hps⟩ := List.forall_mem_cons.1 hnames
    obtain ⟨hapart, hrest⟩ := List.pairwise_cons.1 h
    calc replaceInTurn (p :: ps) s
      _ = replaceInTurn ps (replace p.name p.text s) := rfl
      _ = substitute ps (replace p.name p.text s) := ih hps hrest
      _ = substitute (p :: ps) s := substitute_intercalate (fun q hq => ⟨hps q hq, hapart q hq⟩)
        (cuts_pieces hp s).ne_nil

end Orchestration.Text
