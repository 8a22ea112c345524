import Mathlib.Data.List.Sort
import Orchestration.Text.Substitution

/-!
Placeholders of one width. Where none of two placeholders can start within the other, it does not
matter which of them is written first. Main statement: placeholders that are sorted by width are
written the same, whatever their order was before.
-/

namespace Orchestration.Text

def StartsWithin (p q : List Char) : Prop :=
  ∃ offset < q.length, p <+: q.drop offset ∨ q.drop offset <+: p

instance (p q : List Char) : Decidable (StartsWithin p q) :=
  inferInstanceAs (Decidable (∃ offset < q.length, _))

/-- Two texts that never overlap. -/
def Apart (p q : List Char) : Prop := ¬StartsWithin p q ∧ ¬StartsWithin q p

instance (p q : List Char) : Decidable (Apart p q) := inferInstanceAs (Decidable (_ ∧ _))

theorem Apart.symm {p q : List Char} (h : Apart p q) : Apart q p := ⟨h.2, h.1⟩

theorem not_prefix_drop {p q s : List Char} (h : ¬StartsWithin p q) {offset : Nat}
    (ho : offset < q.length) : ¬p <+: (q ++ s).drop offset := by
  intro hstart
  rw [List.drop_append_of_le_length ho.le] at hstart
  exact h ⟨offset, ho, List.prefix_or_prefix_of_prefix hstart (List.prefix_append ..)⟩

/-- Write the text of the first placeholder that a text starts with, wherever there is one, and let
`rest` write what lies between. What was passed since the last one is kept in `passed`. -/
def weave (ps : List Placeholder) (rest : List Char → List Char) :
    (skip : Nat) → (passed : List Char) → List Char → List Char
  | _, passed, [] => rest passed
  | skip + 1, passed, _ :: cs => weave ps rest skip passed cs
  | 0, passed, c :: cs =>
    match ps.find? fun p => p.name.isPrefixOf (c :: cs) with
    | some p => rest passed ++ (p.text ++ weave ps rest (p.name.length - 1) [] cs)
    | none => weave ps rest 0 (passed ++ [c]) cs

variable {p q : Placeholder} {ps : List Placeholder} {rest : List Char → List Char}
  {passed s : List Char}

theorem weave_skip (skip : Nat) (s : List Char) :
    weave ps rest skip passed s = weave ps rest 0 passed (s.drop skip) := by
  induction skip generalizing s with
  | zero => rfl
  | succ skip ih =>
    cases s with
    | nil => rfl
    | cons c cs => exact ih cs

theorem weave_of_find?_eq_some (hq : q.name ≠ [])
    (h : ps.find? (fun p => p.name.isPrefixOf (q.name ++ s)) = some q) :
    weave ps rest 0 passed (q.name ++ s) = rest passed ++ (q.text ++ weave ps rest 0 [] s) := by
  obtain ⟨c, cs, hc⟩ := List.exists_cons_of_ne_nil hq
  have hdrop : (cs ++ s).drop (q.name.length - 1) = s := by simp [hc]
  rw [hc, List.cons_append] at h ⊢
  rw [weave, h]
  dsimp only
  rw [weave_skip, hdrop]

theorem weave_of_find?_eq_none {c : Char} {cs : List Char}
    (h : ps.find? (fun p => p.name.isPrefixOf (c :: cs)) = none) :
    weave ps rest 0 passed (c :: cs) = weave ps rest 0 (passed ++ [c]) cs := by
  rw [weave, h]

theorem weave_append {x : List Char}
    (h : ∀ offset < x.length, ¬p.name <+: (x ++ s).drop offset) :
    weave [p] rest 0 passed (x ++ s) = weave [p] rest 0 (passed ++ x) s := by
  induction x generalizing passed with
  | nil => rw [List.append_nil, List.nil_append]
  | cons c x ih =>
    have hhead : ¬p.name <+: c :: (x ++ s) := h 0 (by simp)
    rw [List.cons_append, weave_of_find?_eq_none (by simpa using hhead), ih, List.append_assoc]
    · rfl
    · exact fun offset ho => h (offset + 1) (by simpa using ho)

theorem weave_congr {ps' : List Placeholder}
    (h : ∀ s, ps.find? (fun p => p.name.isPrefixOf s) = ps'.find? fun p => p.name.isPrefixOf s) :
    weave ps rest = weave ps' rest := by
  funext skip passed s
  fun_induction weave ps rest skip passed s with
  | case1 => rw [weave]
  | case2 _ _ _ _ ih => rw [ih, weave]
  | case3 _ _ _ _ hp ih => rw [weave, ← h, hp, ih]
  | case4 _ _ _ hp ih => rw [weave, ← h, hp, ih]

theorem cut_ne_nil (d : List Char) (skip : Nat) (s : List Char) : cut d skip s ≠ [] := by
  fun_induction cut d skip s with
  | case1 => simp
  | case2 _ _ _ ih => exact ih
  | case3 => simp
  | case4 c cs _ ih => cases h : cut d 0 cs <;> simp [pushFront]

theorem join_cons (d x : List Char) {xs : List (List Char)} (h : xs ≠ []) :
    join d (x :: xs) = x ++ (d ++ join d xs) := by
  cases xs with
  | nil => exact absurd rfl h
  | cons y ys => simp [join, List.intercalate]

theorem pushFront_eq (c : Char) {pieces : List (List Char)} (h : pieces ≠ []) :
    pushFront c pieces = pieces.modifyHead (c :: ·) := by
  cases pieces with
  | nil => exact absurd rfl h
  | cons => rfl

theorem modifyHead_nil_append (pieces : List (List Char)) :
    pieces.modifyHead ([] ++ ·) = pieces := by
  cases pieces <;> rfl

theorem join_cut (p : Placeholder) (rest : List Char → List Char) (skip : Nat)
    (passed s : List Char) :
    join p.text (((cut p.name skip s).modifyHead (passed ++ ·)).map rest) =
      weave [p] rest skip passed s := by
  fun_induction cut p.name skip s generalizing passed with
  | case1 => simp [weave, join, List.intercalate]
  | case2 _ _ _ ih => rw [ih, weave]
  | case3 c cs hc ih =>
    have hne : (cut p.name (p.name.length - 1) cs).map rest ≠ [] :=
      fun h => cut_ne_nil _ _ _ (List.map_eq_nil_iff.1 h)
    have ih := ih []
    rw [modifyHead_nil_append] at ih
    rw [List.modifyHead_cons, List.map_cons, join_cons _ _ hne, ih, List.append_nil, weave]
    simp [hc]
  | case4 c cs hc ih =>
    have ih := ih (passed ++ [c])
    rw [pushFront_eq c (cut_ne_nil p.name 0 cs), List.modifyHead_modifyHead,
      weave_of_find?_eq_none (by simpa using hc), ← ih]
    simp [Function.comp_def]

theorem substitute_cons (hp : p.name ≠ []) (ps : List Placeholder) :
    substitute (p :: ps) = weave [p] (substitute ps) 0 [] := by
  funext s
  rw [← join_cut, modifyHead_nil_append, substitute, pieces, if_neg (by simpa using hp)]

/-- Writing one placeholder, then another one in what lies between, comes to writing both at once,
as long as the first does not start within the second. What is passed on the way to the next
occurrence of the first holds occurrences of the second, which are written to `out`, and what is
passed since the last of them is `pending`. -/
theorem weave_weave (hp : p.name ≠ []) (hq : q.name ≠ []) (hpq : ¬StartsWithin p.name q.name)
    {pending out : List Char}
    (h : ∀ x, x <+: s →
      weave [q] rest 0 [] (passed ++ x) = out ++ weave [q] rest 0 pending x) :
    weave [p] (weave [q] rest 0 []) 0 passed s = out ++ weave [p, q] rest 0 pending s := by
  induction hn : s.length using Nat.strongRecOn generalizing s passed pending out with
  | ind n ih =>
    by_cases hps : p.name <+: s
    · obtain ⟨s', rfl⟩ := hps
      have hlt : s'.length < n := by
        have := List.length_pos_iff.2 hp
        simp at hn
        omega
      have hflush := h [] (List.nil_prefix ..)
      rw [List.append_nil] at hflush
      rw [weave_of_find?_eq_some hp (by simp), weave_of_find?_eq_some hp (by simp), hflush,
        ih _ hlt (fun x _ => by rw [List.nil_append, List.nil_append]) rfl]
      simp [weave]
    · cases s with
      | nil =>
        have hflush := h [] (List.nil_prefix ..)
        rwa [List.append_nil] at hflush
      | cons c cs =>
        by_cases hqs : q.name <+: c :: cs
        · obtain ⟨s', hs'⟩ := hqs
          rw [← hs'] at hps hn h ⊢
          have hlt : s'.length < n := by
            have := List.length_pos_iff.2 hq
            simp at hn
            omega
          rw [weave_append fun _ ho => not_prefix_drop hpq ho,
            weave_of_find?_eq_some hq (by simp [hps]), ← List.append_assoc, ← List.append_assoc]
          refine ih _ hlt (fun x hx => ?_) rfl
          rw [List.append_assoc, h _ ((List.prefix_append_right_inj _).2 hx),
            weave_of_find?_eq_some hq (by simp)]
          simp
        · have hlt : cs.length < n := by simp at hn; omega
          rw [weave_of_find?_eq_none (by simpa using hps),
            weave_of_find?_eq_none (by simpa using ⟨hps, hqs⟩)]
          refine ih _ hlt (fun x hx => ?_) rfl
          have hcx : c :: x <+: c :: cs := List.cons_prefix_cons.2 ⟨rfl, hx⟩
          rw [List.append_assoc, List.singleton_append, h _ hcx, weave_of_find?_eq_none]
          simpa using fun hqx => hqs (hqx.trans hcx)

theorem substitute_eq_weave (hp : p.name ≠ []) (hq : q.name ≠ [])
    (hpq : ¬StartsWithin p.name q.name) (ps : List Placeholder) :
    substitute (p :: q :: ps) = weave [p, q] (substitute ps) 0 [] := by
  funext s
  rw [substitute_cons hp, substitute_cons hq]
  have hstart : ∀ x, x <+: s → weave [q] (substitute ps) 0 [] ([] ++ x) =
      [] ++ weave [q] (substitute ps) 0 [] x := fun _ _ => rfl
  exact weave_weave hp hq hpq hstart

theorem Apart.not_prefix {a b s : List Char} (h : Apart a b) (hb : b ≠ []) (hs : a <+: s) :
    ¬b <+: s :=
  fun hbs => h.1 ⟨0, List.length_pos_iff.2 hb, List.prefix_or_prefix_of_prefix hs hbs⟩

theorem substitute_swap (hp : p.name ≠ []) (hq : q.name ≠ []) (h : Apart p.name q.name)
    (ps : List Placeholder) : substitute (p :: q :: ps) = substitute (q :: p :: ps) := by
  rw [substitute_eq_weave hp hq h.1, substitute_eq_weave hq hp h.2]
  refine congrArg (· 0 []) (weave_congr fun s => ?_)
  by_cases hps : p.name <+: s
  · have hqs := h.not_prefix hq hps
    simp [hps, hqs]
  · by_cases hqs : q.name <+: s <;> simp [hps, hqs]

theorem substitute_middle (hp : p.name ≠ []) {before after : List Placeholder}
    (h : ∀ q ∈ before, q.name ≠ [] ∧ Apart p.name q.name) :
    substitute (before ++ p :: after) = substitute (p :: (before ++ after)) := by
  induction before with
  | nil => rfl
  | cons q before ih =>
    obtain ⟨⟨hq, hpq⟩, hbefore⟩ := List.forall_mem_cons.1 h
    rw [List.cons_append, List.cons_append, substitute_swap hp hq hpq, substitute_cons hq,
      substitute_cons hq, ih hbefore]

def NoneOverlap (ps : List Placeholder) : Prop :=
  ps.Pairwise fun p q => p.width = q.width → Apart p.name q.name

theorem NoneOverlap.perm {ps' : List Placeholder} (h : NoneOverlap ps) (hp : ps.Perm ps') :
    NoneOverlap ps' :=
  List.Pairwise.perm h hp fun hpq he => (hpq he.symm).symm

theorem substitute_of_perm {ps' : List Placeholder} (h : ps.Perm ps')
    (hsorted : ps.Pairwise fun p q => q.width ≤ p.width)
    (hsorted' : ps'.Pairwise fun p q => q.width ≤ p.width) (hnames : ∀ p ∈ ps, p.name ≠ [])
    (hnone : NoneOverlap ps) : substitute ps = substitute ps' := by
  induction ps generalizing ps' with
  | nil => rw [h.nil_eq]
  | cons p ps ih =>
    obtain ⟨before, after, rfl⟩ := List.append_of_mem (h.subset (List.mem_cons_self ..))
    obtain ⟨hp, hnames⟩ := List.forall_mem_cons.1 hnames
    obtain ⟨hwide, hsorted⟩ := List.pairwise_cons.1 hsorted
    obtain ⟨hapart, hnone⟩ := List.pairwise_cons.1 hnone
    have hrest : ps.Perm (before ++ after) := (h.trans List.perm_middle).cons_inv
    -- what stands before the widest placeholder in the other list is as wide
    have hbefore : ∀ q ∈ before, q.name ≠ [] ∧ Apart p.name q.name := by
      intro q hq
      have hmem : q ∈ ps := hrest.symm.subset (List.mem_append_left _ hq)
      have hle : p.width ≤ q.width :=
        (List.pairwise_append.1 hsorted').2.2 q hq p (List.mem_cons_self ..)
      exact ⟨hnames q hmem, hapart q hmem (hle.antisymm (hwide q hmem))⟩
    have hsub : (before ++ after).Sublist (before ++ p :: after) :=
      (List.Sublist.refl before).append (List.sublist_cons_self p after)
    rw [substitute_middle hp hbefore, substitute_cons hp, substitute_cons hp,
      ih hrest hsorted (hsorted'.sublist hsub) hnames hnone]

theorem pairwise_sort (ps : List Placeholder) :
    (Placeholder.sort ps).Pairwise fun p q => q.width ≤ p.width := by
  have hwide (a b : Placeholder) (hab : decide (b.width ≤ a.width) = true) : b.width ≤ a.width :=
    of_decide_eq_true hab
  refine (List.pairwise_mergeSort (fun a b c hab hbc => ?_) (fun a b => ?_) ps).imp (hwide _ _)
  · exact decide_eq_true (Nat.le_trans (hwide b c hbc) (hwide a b hab))
  · simpa using Nat.le_total b.width a.width

/-- Placeholders are written the same whatever their order, if none of two that have one width
overlap. -/
theorem substitute_sort {ps' : List Placeholder} (h : ps.Perm ps') (hnames : ∀ p ∈ ps, p.name ≠ [])
    (hnone : NoneOverlap ps) :
    substitute (Placeholder.sort ps) = substitute (Placeholder.sort ps') := by
  have hsort : (Placeholder.sort ps).Perm ps := List.mergeSort_perm ..
  have hsort' : (Placeholder.sort ps').Perm ps' := List.mergeSort_perm ..
  exact substitute_of_perm (hsort.trans (h.trans hsort'.symm)) (pairwise_sort ps)
    (pairwise_sort ps') (fun p hp => hnames p (hsort.subset hp)) (hnone.perm hsort.symm)

end Orchestration.Text
