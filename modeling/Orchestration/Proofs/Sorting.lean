import Mathlib.Data.List.Basic
import Mathlib.Data.List.Sort

namespace Orchestration.Sorting

variable {α : Type} {le : α → α → Bool}

def sameRank (le : α → α → Bool) (a b : α) : Bool := le a b && le b a

theorem sameRank_iff {a b : α} : sameRank le a b = true ↔ le a b = true ∧ le b a = true :=
  Bool.and_eq_true_iff

section

variable (total : ∀ a b, (le a b || le b a) = true)

include total

theorem sameRank_self (a : α) : sameRank le a a = true := by
  have h := total a a
  rw [Bool.or_self] at h
  exact sameRank_iff.2 ⟨h, h⟩

theorem mem_of_filter_sameRank {l l' : List α}
    (hf : ∀ a, l.filter (sameRank le a) = l'.filter (sameRank le a)) {a : α} (ha : a ∈ l) :
    a ∈ l' := by
  have hself : a ∈ l.filter (sameRank le a) := List.mem_filter.2 ⟨ha, sameRank_self total a⟩
  rw [hf a] at hself
  exact (List.mem_filter.1 hself).1

theorem head_le {l : List α} {a b : α} (h : (a :: l).Pairwise (le · ·)) (hb : b ∈ a :: l) :
    le a b = true := by
  obtain rfl | hb := List.mem_cons.1 hb
  · exact (sameRank_iff.1 (sameRank_self total b)).1
  · exact List.rel_of_pairwise_cons h hb

theorem eq_of_filter_sameRank {l l' : List α} (h : l.Pairwise (le · ·)) (h' : l'.Pairwise (le · ·))
    (hf : ∀ a, l.filter (sameRank le a) = l'.filter (sameRank le a)) : l = l' := by
  have hf' : ∀ a, l'.filter (sameRank le a) = l.filter (sameRank le a) := fun a => (hf a).symm
  induction l generalizing l' with
  | nil => exact (List.eq_nil_iff_forall_not_mem.2 fun a ha =>
      List.not_mem_nil (mem_of_filter_sameRank total hf' ha)).symm
  | cons a l ih =>
    cases l' with
    | nil => exact absurd (mem_of_filter_sameRank total hf List.mem_cons_self) List.not_mem_nil
    | cons b l' =>
      -- each of the two heads is the first of its list, so they have one rank
      have hba : le b a = true :=
        head_le total h' (mem_of_filter_sameRank total hf List.mem_cons_self)
      have hab : le a b = true :=
        head_le total h (mem_of_filter_sameRank total hf' List.mem_cons_self)
      have hhead := hf a
      rw [List.filter_cons_of_pos (sameRank_self total a),
        List.filter_cons_of_pos (sameRank_iff.2 ⟨hab, hba⟩)] at hhead
      obtain ⟨rfl, -⟩ := List.cons.inj hhead
      have hrest : ∀ c, l.filter (sameRank le c) = l'.filter (sameRank le c) := by
        intro c
        have hc := hf c
        by_cases hr : sameRank le c a = true
        · rw [List.filter_cons_of_pos hr, List.filter_cons_of_pos hr] at hc
          exact (List.cons.inj hc).2
        · rwa [List.filter_cons_of_neg hr, List.filter_cons_of_neg hr] at hc
      rw [ih h.of_cons h'.of_cons hrest fun c => (hrest c).symm]

variable (trans : ∀ a b c, le a b = true → le b c = true → le a c = true)

include trans

theorem filter_mergeSort {p : α → Bool} (hp : ∀ a b, p a = true → p b = true → le a b = true)
    (l : List α) : (l.mergeSort le).filter p = l.filter p := by
  have hpairs : (l.filter p).Pairwise (le · ·) :=
    List.pairwise_of_forall_mem_list fun a ha b hb =>
      hp a b (List.mem_filter.1 ha).2 (List.mem_filter.1 hb).2
  have hsub := (List.sublist_mergeSort trans total hpairs List.filter_sublist).filter p
  simp only [List.filter_filter, Bool.and_self] at hsub
  exact (hsub.eq_of_length ((List.mergeSort_perm l le).filter _).length_eq.symm).symm

theorem mergeSort_congr {l l' : List α}
    (hf : ∀ a, l.filter (sameRank le a) = l'.filter (sameRank le a)) :
    l.mergeSort le = l'.mergeSort le := by
  have hrank (a b c : α) (hb : sameRank le a b = true) (hc : sameRank le a c = true) :
      le b c = true := trans b a c (sameRank_iff.1 hb).2 (sameRank_iff.1 hc).1
  refine eq_of_filter_sameRank total (List.pairwise_mergeSort trans total l)
    (List.pairwise_mergeSort trans total l') fun a => ?_
  rw [filter_mergeSort total trans (hrank a), filter_mergeSort total trans (hrank a), hf a]

theorem mergeSort_filter (p : α → Bool) (l : List α) :
    (l.filter p).mergeSort le = (l.mergeSort le).filter p := by
  have hrank (a b c : α) (hb : sameRank le a b = true) (hc : sameRank le a c = true) :
      le b c = true := trans b a c (sameRank_iff.1 hb).2 (sameRank_iff.1 hc).1
  refine eq_of_filter_sameRank total (List.pairwise_mergeSort trans total _)
    ((List.pairwise_mergeSort trans total l).filter p) fun a => ?_
  rw [filter_mergeSort total trans (hrank a), List.filter_comm, List.filter_comm (sameRank le a),
    filter_mergeSort total trans (hrank a)]

end

section

variable {α : Type} [BEq α] [LawfulBEq α] {x a : α} {as acc : List α}

theorem mem_eraseReps_loop :
    x ∈ List.eraseRepsBy.loop (· == ·) a as acc ↔ x ∈ acc ∨ x = a ∨ x ∈ as := by
  induction as generalizing a acc with
  | nil => simp [List.eraseRepsBy.loop, or_comm]
  | cons b as ih =>
    simp only [List.eraseRepsBy.loop]
    split
    · next h =>
      obtain rfl := eq_of_beq h
      simp [ih]
    · simp [ih, or_left_comm, or_assoc]

theorem mem_eraseReps : x ∈ as.eraseReps ↔ x ∈ as := by
  cases as with
  | nil => rfl
  | cons a as =>
    have h : x ∈ List.eraseRepsBy.loop (· == ·) a as [] ↔ x ∈ [] ∨ x = a ∨ x ∈ as :=
      mem_eraseReps_loop
    simpa [List.eraseReps, List.eraseRepsBy] using h

variable [LE α] [LT α] [Std.LawfulOrderLT α] [Std.IsPartialOrder α]

/-- What was found so far stands in `acc`, the last one first. -/
theorem pairwise_eraseReps_loop (hacc : (a :: acc).Pairwise (· > ·))
    (has : (a :: as).Pairwise (· ≤ ·)) :
    (List.eraseRepsBy.loop (· == ·) a as acc).Pairwise (· < ·) := by
  induction as generalizing a acc with
  | nil => simpa [List.eraseRepsBy.loop] using List.pairwise_reverse.2 hacc
  | cons b as ih =>
    obtain ⟨ha, has⟩ := List.pairwise_cons.1 has
    simp only [List.eraseRepsBy.loop]
    split
    · next h =>
      obtain rfl := eq_of_beq h
      exact ih hacc has
    · next h =>
      have hab : a < b := Std.lt_of_le_of_ne (ha b (by simp)) (by simpa using h)
      refine ih (List.pairwise_cons.2 ⟨fun y hy => ?_, hacc⟩) has
      obtain rfl | hy := List.mem_cons.1 hy
      · exact hab
      · exact Std.lt_trans ((List.pairwise_cons.1 hacc).1 y hy) hab

theorem pairwise_eraseReps (h : as.Pairwise (· ≤ ·)) : as.eraseReps.Pairwise (· < ·) := by
  cases as with
  | nil => exact .nil
  | cons a as => exact pairwise_eraseReps_loop (List.pairwise_singleton _ a) h

end

end Orchestration.Sorting
