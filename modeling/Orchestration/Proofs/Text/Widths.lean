import Mathlib.Data.List.Infix
import Orchestration.Text.Indent

namespace Orchestration.Text

variable {s t r : List Char} {n : Nat}

def width (s : List Char) : Nat := (String.ofList s).utf8ByteSize

@[simp] theorem width_nil : width [] = 0 := rfl

@[simp] theorem width_cons (c : Char) (s : List Char) : width (c :: s) = c.utf8Size + width s := by
  rw [width, String.ofList_cons, String.utf8ByteSize_append, String.utf8ByteSize_singleton, width]

@[simp] theorem width_append (s t : List Char) : width (s ++ t) = width s + width t := by
  rw [width, String.ofList_append, String.utf8ByteSize_append, width, width]

theorem width_toList (s : String) : width s.toList = s.utf8ByteSize := by
  rw [width, String.ofList_toList]

theorem foldl_utf8Size (s : List Char) (n : Nat) :
    s.foldl (fun width c => width + c.utf8Size) n = n + width s := by
  induction s generalizing n with
  | nil => rfl
  | cons c s ih => rw [List.foldl_cons, ih, width_cons, Nat.add_assoc]

theorem width_eq_zero_iff : width s = 0 ↔ s = [] := by
  cases s with
  | nil => simp
  | cons c s => simp [Nat.ne_of_gt c.utf8Size_pos]

theorem width_of_forall {w : Nat} (h : ∀ c ∈ s, c.utf8Size = w) : width s = s.length * w := by
  induction s with
  | nil => simp
  | cons c s ih =>
    obtain ⟨hc, hs⟩ := List.forall_mem_cons.1 h
    rw [width_cons, hc, ih hs, List.length_cons, Nat.succ_mul, Nat.add_comm]

theorem prefix_of_width_le (hs : s <+: r) (ht : t <+: r) (h : width s ≤ width t) : s <+: t := by
  obtain hst | ⟨more, rfl⟩ := List.prefix_or_prefix_of_prefix hs ht
  · exact hst
  · rw [width_append] at h
    have hmore : more = [] := width_eq_zero_iff.1 (by omega)
    simp [hmore]

theorem dropBytes_eq_some_iff : dropBytes n s = some r ↔ ∃ l, s = l ++ r ∧ width l = n := by
  fun_induction dropBytes n s with
  | case1 s =>
    constructor
    · rintro ⟨⟩
      exact ⟨[], rfl, rfl⟩
    · rintro ⟨l, rfl, hl⟩
      rw [width_eq_zero_iff.1 hl, List.nil_append]
  | case2 n =>
    refine ⟨nofun, ?_⟩
    rintro ⟨l, hs, hl⟩
    rw [(List.append_eq_nil_iff.1 hs.symm).1] at hl
    cases hl
  | case3 n c cs hfits ih =>
    rw [ih]
    constructor
    · rintro ⟨l, rfl, hl⟩
      exact ⟨c :: l, rfl, by rw [width_cons, hl, Nat.add_sub_of_le hfits]⟩
    · rintro ⟨l, hs, hl⟩
      cases l with
      | nil => cases hl
      | cons b l =>
        obtain ⟨rfl, rfl⟩ := List.cons.inj hs
        exact ⟨l, rfl, Nat.eq_sub_of_add_eq' ((width_cons c l).symm.trans hl)⟩
  | case4 n c cs hcut =>
    refine ⟨nofun, ?_⟩
    rintro ⟨l, hs, hl⟩
    cases l with
    | nil => cases hl
    | cons b l =>
      obtain ⟨rfl, -⟩ := List.cons.inj hs
      rw [width_cons] at hl
      omega

theorem isValid_iff :
    String.Pos.Raw.IsValid (String.ofList s) ⟨n⟩ ↔ ∃ l r, s = l ++ r ∧ width l = n := by
  rw [String.Pos.Raw.isValid_iff_exists_append]
  constructor
  · rintro ⟨l, r, hs, hn⟩
    refine ⟨l.toList, r.toList, by simpa using congrArg String.toList hs, ?_⟩
    exact (width_toList l).trans (congrArg String.Pos.Raw.byteIdx hn).symm
  · rintro ⟨l, r, rfl, rfl⟩
    exact ⟨String.ofList l, String.ofList r, String.ofList_append, rfl⟩

theorem exists_dropBytes_iff :
    (∃ r, dropBytes n s = some r) ↔ String.Pos.Raw.IsValid (String.ofList s) ⟨n⟩ := by
  rw [isValid_iff, exists_comm]
  exact exists_congr fun r => dropBytes_eq_some_iff

end Orchestration.Text
