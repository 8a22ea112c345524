import Mathlib.Data.List.TakeWhile
import Orchestration.Proofs.Text.Numerals
import Orchestration.Text.Blank

namespace Orchestration.Text

variable {s before after : List Char} {i : Int64} {n : Int}

def AllBlank (s : List Char) : Prop := ∀ c ∈ s, isBlank c = true

instance (s : List Char) : Decidable (AllBlank s) :=
  List.decidableBAll (fun c => isBlank c = true) s

theorem exists_trim (s : List Char) :
    ∃ before after, AllBlank before ∧ AllBlank after ∧ s = before ++ (trim s ++ after) := by
  have hreverse := congrArg List.reverse
    (List.takeWhile_append_dropWhile (p := isBlank) (l := (trimStart s).reverse))
  rw [List.reverse_append, List.reverse_reverse] at hreverse
  refine ⟨s.takeWhile isBlank, ((trimStart s).reverse.takeWhile isBlank).reverse, ?_, ?_, ?_⟩
  · exact fun c => List.mem_takeWhile_imp
  · exact fun c hc => List.mem_takeWhile_imp (List.mem_reverse.1 hc)
  · rw [trim, trimEnd, hreverse, trimStart, List.takeWhile_append_dropWhile]

theorem trimStart_append (hbefore : AllBlank before) (hs : ∀ c ∈ s.head?, isBlank c = false) :
    trimStart (before ++ s) = s := by
  rw [trimStart, List.dropWhile_append_of_pos hbefore]
  cases s with
  | nil => rfl
  | cons c s => exact List.dropWhile_cons_of_neg (by simp [hs c rfl])

theorem trim_append (hbefore : AllBlank before) (hafter : AllBlank after) (hne : s ≠ [])
    (hs : ∀ c ∈ s, isBlank c = false) : trim (before ++ (s ++ after)) = s := by
  have hhead : ∀ c ∈ (s ++ after).head?, isBlank c = false := by
    obtain ⟨c, s, rfl⟩ := List.exists_cons_of_ne_nil hne
    rintro c ⟨⟩
    exact hs c List.mem_cons_self
  have hlast : ∀ c ∈ s.reverse.head?, isBlank c = false :=
    fun c hc => hs c (List.mem_reverse.1 (List.mem_of_mem_head? hc))
  have hend := trimStart_append (fun c hc => hafter c (List.mem_reverse.1 hc)) hlast
  rw [trim, trimStart_append hbefore hhead, trimEnd, List.reverse_append, ← trimStart, hend,
    List.reverse_reverse]

theorem not_isBlank_of_isDigit {c : Char} (h : c.isDigit = true) : isBlank c = false := by
  have hrange : 48 ≤ c.toNat ∧ c.toNat ≤ 57 := by
    simpa [Char.isDigit, UInt32.le_iff_toNat_le] using h
  simp only [isBlank, Bool.or_eq_false_iff, Bool.and_eq_false_iff, decide_eq_false_iff_not,
    beq_eq_false_iff_ne]
  omega

theorem DenotesSigned.ne_nil (h : DenotesSigned s n) : s ≠ [] := by
  cases h with
  | bare h => exact h.ne_nil
  | plus _ => exact List.cons_ne_nil _ _
  | minus _ => exact List.cons_ne_nil _ _

theorem DenotesSigned.not_isBlank (h : DenotesSigned s n) : ∀ c ∈ s, isBlank c = false := by
  have hdigits {s : List Char} {n : Nat} (h : Denotes s n) : ∀ c ∈ s, isBlank c = false :=
    fun c hc => not_isBlank_of_isDigit (h.digits c hc)
  cases h with
  | bare h => exact hdigits h
  | plus h => exact List.forall_mem_cons.2 ⟨by decide, hdigits h⟩
  | minus h => exact List.forall_mem_cons.2 ⟨by decide, hdigits h⟩

def DenotesPadded (s : List Char) (n : Int) : Prop :=
  ∃ before numeral after, AllBlank before ∧ AllBlank after ∧ DenotesSigned numeral n ∧
    s = before ++ (numeral ++ after)

theorem signed?_trim_eq_some_iff : signed? (trim s) = some i ↔ DenotesPadded s i.toInt := by
  rw [signed?_eq_some_iff]
  constructor
  · intro h
    obtain ⟨before, after, hbefore, hafter, hs⟩ := exists_trim s
    exact ⟨before, trim s, after, hbefore, hafter, h, hs⟩
  · rintro ⟨before, numeral, after, hbefore, hafter, h, rfl⟩
    rwa [trim_append hbefore hafter h.ne_nil h.not_isBlank]

end Orchestration.Text
