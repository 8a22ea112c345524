import Mathlib.Logic.Basic
import Orchestration.Text.Numeral

namespace Orchestration.Text

structure Denotes (s : List Char) (n : Nat) : Prop where
  ne_nil : s ≠ []
  digits : ∀ c ∈ s, c.isDigit = true
  value : Nat.ofDigitChars 10 s 0 = n

inductive DenotesUnsigned : List Char → Nat → Prop
  | bare {s n} : Denotes s n → DenotesUnsigned s n
  | plus {s n} : Denotes s n → DenotesUnsigned ('+' :: s) n

inductive DenotesSigned : List Char → Int → Prop
  | bare {s n} : Denotes s n → DenotesSigned s n
  | plus {s n} : Denotes s n → DenotesSigned ('+' :: s) n
  | minus {s n} : Denotes s n → DenotesSigned ('-' :: s) (-n)

variable {s : List Char} {n : Nat} {i : Int64}

theorem denotes_toDigits (n : Nat) : Denotes (Nat.toDigits 10 n) n where
  ne_nil := Nat.toDigits_ne_nil
  digits _ := Nat.isDigit_of_mem_toDigits (by decide) (by decide)
  value := Nat.ofDigitChars_ten_toDigits

theorem head?_toDigits {n : Nat} (h : 0 < n) : (Nat.toDigits 10 n).head? ≠ some '0' := by
  induction n using Nat.strongRecOn with
  | ind n ih =>
    rw [Nat.toDigits_eq_if (by decide)]
    split
    · next hlt =>
      have hall : ∀ m < 10, 0 < m → [Nat.digitChar m].head? ≠ some '0' := by decide
      exact hall n hlt h
    · next hle =>
      have hih := ih (n / 10) (by omega) (by omega)
      obtain ⟨c, cs, hc⟩ := List.exists_cons_of_ne_nil (Nat.toDigits_ne_nil (n := n / 10) (b := 10))
      rw [hc] at hih ⊢
      exact hih

theorem Denotes.not_sign {c : Char} (h : Denotes (c :: s) n) : c ≠ '+' ∧ c ≠ '-' := by
  have hdigit := h.digits c List.mem_cons_self
  constructor <;> (rintro rfl; cases hdigit)

theorem natural?_eq_some_iff : natural? s = some n ↔ Denotes s n := by
  rw [natural?]
  split
  · next h =>
    rw [Bool.and_eq_true, Bool.not_eq_true', List.isEmpty_eq_false_iff, List.all_eq_true] at h
    rw [Option.some.injEq]
    exact ⟨fun hn => ⟨h.1, h.2, hn⟩, Denotes.value⟩
  · next h =>
    refine ⟨nofun, fun hn => absurd ?_ h⟩
    rw [Bool.and_eq_true, Bool.not_eq_true', List.isEmpty_eq_false_iff, List.all_eq_true]
    exact ⟨hn.ne_nil, hn.digits⟩

theorem filter_natural?_eq_some_iff {p : Nat → Bool} :
    (natural? s).filter p = some n ↔ Denotes s n ∧ p n = true := by
  rw [Option.filter_eq_some_iff, natural?_eq_some_iff]

theorem unsigned?_eq_some_iff :
    unsigned? s = some n ↔ DenotesUnsigned s n ∧ n < Nat.pow 2 64 := by
  unfold unsigned?
  split
  · next s =>
    rw [filter_natural?_eq_some_iff, decide_eq_true_eq]
    refine and_congr_left fun _ => ⟨.plus, fun h => ?_⟩
    cases h with
    | plus h => exact h
    | bare h => exact absurd rfl h.not_sign.1
  · next hplus =>
    rw [filter_natural?_eq_some_iff, decide_eq_true_eq]
    refine and_congr_left fun _ => ⟨.bare, fun h => ?_⟩
    cases h with
    | bare h => exact h
    | plus h => exact absurd rfl (hplus _)

theorem ofNat_natural?_eq_some_iff :
    ((natural? s).filter (· < Nat.pow 2 63)).map Int64.ofNat = some i ↔
      ∃ n : Nat, Denotes s n ∧ i.toInt = n := by
  simp only [Option.map_eq_some_iff, filter_natural?_eq_some_iff, decide_eq_true_eq]
  constructor
  · rintro ⟨n, ⟨hn, hlt⟩, rfl⟩
    exact ⟨n, hn, Int64.toInt_ofNat_of_lt hlt⟩
  · rintro ⟨n, hn, heq⟩
    have hlt : n < 2 ^ 63 := by
      have := i.toInt_lt
      omega
    exact ⟨n, ⟨hn, hlt⟩, Int64.toInt.inj ((Int64.toInt_ofNat_of_lt hlt).trans heq.symm)⟩

theorem neg_natural?_eq_some_iff :
    (((natural? s).filter (· ≤ Nat.pow 2 63)).map fun n => Int64.ofInt (-n)) = some i ↔
      ∃ n : Nat, Denotes s n ∧ i.toInt = -n := by
  have hneg {n : Nat} (hle : n ≤ 2 ^ 63) : (Int64.ofInt (-n)).toInt = -n :=
    Int64.toInt_ofInt_of_le (by omega) (by omega)
  simp only [Option.map_eq_some_iff, Option.bind_eq_bind, Option.bind_eq_some_iff,
    filter_natural?_eq_some_iff, decide_eq_true_eq, Option.pure_def, Option.some.injEq]
  constructor
  · rintro ⟨_, ⟨n, ⟨hn, hle⟩, rfl⟩, rfl⟩
    exact ⟨n, hn, hneg hle⟩
  · rintro ⟨n, hn, heq⟩
    have hle : n ≤ 2 ^ 63 := by
      have := i.le_toInt
      omega
    exact ⟨n, ⟨n, ⟨hn, hle⟩, rfl⟩, Int64.toInt.inj ((hneg hle).trans heq.symm)⟩

theorem signed?_eq_some_iff : signed? s = some i ↔ DenotesSigned s i.toInt := by
  unfold signed?
  split
  · next s =>
    rw [ofNat_natural?_eq_some_iff]
    constructor
    · rintro ⟨n, hn, hi⟩
      exact hi ▸ .plus hn
    · generalize i.toInt = k
      rintro (h | h | h)
      · exact absurd rfl h.not_sign.1
      · exact ⟨_, h, rfl⟩
  · next s =>
    rw [neg_natural?_eq_some_iff]
    constructor
    · rintro ⟨n, hn, hi⟩
      exact hi ▸ .minus hn
    · generalize i.toInt = k
      rintro (h | h | h)
      · exact absurd rfl h.not_sign.2
      · exact ⟨_, h, rfl⟩
  · next hplus hminus =>
    rw [ofNat_natural?_eq_some_iff]
    constructor
    · rintro ⟨n, hn, hi⟩
      exact hi ▸ .bare hn
    · generalize i.toInt = k
      rintro (h | h | h)
      · exact ⟨_, h, rfl⟩
      · exact absurd rfl (hplus _)
      · exact absurd rfl (hminus _)

theorem denotesSigned_ofInt (i : Int) : DenotesSigned (ofInt i) i := by
  unfold ofInt
  split
  · have hdenotes := DenotesSigned.minus (denotes_toDigits i.natAbs)
    rwa [show -(i.natAbs : Int) = i by omega] at hdenotes
  · have hdenotes := DenotesSigned.bare (denotes_toDigits i.natAbs)
    rwa [show (i.natAbs : Int) = i by omega] at hdenotes

namespace Numeral

variable {n : Numeral} {s rest digits : List Char} {c : Char}

def fractionText (n : Numeral) : List Char := n.fraction.elim [] fun digits => '.' :: digits

def exponentText (n : Numeral) : List Char :=
  n.exponent.elim [] fun digits => 'e' :: (n.exponentSign.toList ++ digits)

def written (n : Numeral) : List Char :=
  n.sign.toList ++ (n.whole ++ (n.fractionText ++ n.exponentText))

def IsSign (c : Char) : Prop := c = '+' ∨ c = '-'

def IsRun (s : List Char) : Prop := s ≠ [] ∧ ∀ c ∈ s, c.isDigit = true

theorem isRun_toDigits (n : Nat) : IsRun (Nat.toDigits 10 n) :=
  ⟨(denotes_toDigits n).ne_nil, (denotes_toDigits n).digits⟩

structure Proper (n : Numeral) : Prop where
  sign : ∀ c, n.sign = some c → IsSign c
  whole : IsRun n.whole
  fraction : ∀ digits, n.fraction = some digits → IsRun digits
  exponent : ∀ digits, n.exponent = some digits → IsRun digits
  exponentSign : ∀ c, n.exponentSign = some c → IsSign c ∧ n.exponent ≠ none

theorem takeSign_append {sign : Option Char} (hsign : ∀ c, sign = some c → IsSign c)
    (hs : IsRun s) (rest : List Char) :
    takeSign (sign.toList ++ (s ++ rest)) = (sign, s ++ rest) := by
  cases sign with
  | some c => obtain rfl | rfl := hsign c rfl <;> rfl
  | none =>
    obtain ⟨hne, hdigits⟩ := hs
    obtain ⟨c, s, rfl⟩ := List.exists_cons_of_ne_nil hne
    have hc := hdigits c List.mem_cons_self
    rw [Option.toList_none, List.nil_append, List.cons_append]
    unfold takeSign
    split
    · next heq => cases heq; cases hc
    · next heq => cases heq; cases hc
    · rfl

theorem takeWhile_digits (hs : IsRun s) (hrest : ∀ c ∈ rest.head?, c.isDigit = false) :
    (s ++ rest).takeWhile Char.isDigit = s ∧ (s ++ rest).dropWhile Char.isDigit = rest := by
  rw [List.takeWhile_append_of_pos hs.2, List.dropWhile_append_of_pos hs.2]
  cases rest with
  | nil => simp
  | cons c rest =>
    have hc : ¬c.isDigit = true := by simpa using hrest c rfl
    rw [List.takeWhile_cons_of_neg hc, List.dropWhile_cons_of_neg hc, List.append_nil]
    exact ⟨rfl, rfl⟩

def takeFraction : List Char → Option (List Char) × List Char
  | '.' :: s => (some (s.takeWhile Char.isDigit), s.dropWhile Char.isDigit)
  | s => (none, s)

def exponent? : List Char → Option (Option Char × Option (List Char))
  | [] => some (none, none)
  | e :: s =>
    if (e = 'e' || e = 'E') && (takeSign s).2.all Char.isDigit then
      some ((takeSign s).1, some (takeSign s).2)
    else none

theorem split?_eq (s : List Char) : split? s =
    (exponent? (takeFraction ((takeSign s).2.dropWhile Char.isDigit)).2).map fun e =>
      ⟨(takeSign s).1, (takeSign s).2.takeWhile Char.isDigit,
        (takeFraction ((takeSign s).2.dropWhile Char.isDigit)).1, e.1, e.2⟩ := by
  show (match (takeFraction ((takeSign s).2.dropWhile Char.isDigit)).2 with
    | [] => some (Numeral.mk _ _ _ none none)
    | e :: s => if (e = 'e' || e = 'E') && (takeSign s).2.all Char.isDigit then _ else none) = _
  cases (takeFraction ((takeSign s).2.dropWhile Char.isDigit)).2 with
  | nil => rfl
  | cons e s =>
    dsimp only [exponent?]
    split <;> rfl

theorem head?_exponentText (n : Numeral) : ∀ c ∈ n.exponentText.head?, c = 'e' := by
  unfold exponentText
  cases n.exponent <;> simp

theorem takeFraction_written (h : n.Proper) :
    takeFraction (n.fractionText ++ n.exponentText) = (n.fraction, n.exponentText) := by
  have hhead := n.head?_exponentText
  unfold fractionText
  cases hfraction : n.fraction with
  | none =>
    generalize n.exponentText = rest at hhead
    rw [Option.elim_none, List.nil_append]
    unfold takeFraction
    split
    · next s => cases hhead '.' rfl
    · rfl
  | some digits =>
    have hends : ∀ c ∈ n.exponentText.head?, c.isDigit = false := fun c hc => by
      rw [hhead c hc]
      rfl
    obtain ⟨htake, hdrop⟩ := takeWhile_digits (h.fraction digits hfraction) hends
    exact congrArg₂ (fun a b => (some a, b)) htake hdrop

theorem exponent?_written (h : n.Proper) :
    exponent? n.exponentText = some (n.exponentSign, n.exponent) := by
  unfold exponentText
  cases hexponent : n.exponent with
  | none =>
    cases hsign : n.exponentSign with
    | none => rfl
    | some c => exact absurd hexponent (h.exponentSign c hsign).2
  | some digits =>
    have hrun := h.exponent digits hexponent
    have hsign := takeSign_append (fun c hc => (h.exponentSign c hc).1) hrun []
    rw [List.append_nil] at hsign
    dsimp only [Option.elim_some, exponent?]
    rw [hsign, if_pos (by simpa using hrun.2)]

theorem split?_written (h : n.Proper) : split? n.written = some n := by
  have hhead : ∀ c ∈ (n.fractionText ++ n.exponentText).head?, c.isDigit = false := by
    unfold fractionText
    cases n.fraction with
    | none =>
      intro c hc
      rw [n.head?_exponentText c hc]
      rfl
    | some digits => simp
  obtain ⟨htake, hdrop⟩ := takeWhile_digits h.whole hhead
  rw [split?_eq, written, takeSign_append h.sign h.whole]
  dsimp only
  rw [htake, hdrop, takeFraction_written h, exponent?_written h]
  rfl

end Numeral

end Orchestration.Text
