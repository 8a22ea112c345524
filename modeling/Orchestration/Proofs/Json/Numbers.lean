import Mathlib.Data.List.DropRight
import Orchestration.Json.Reader
import Orchestration.Json.Writer
import Orchestration.Proofs.Text.Numerals

namespace Orchestration

open Text (Numeral)
open Text.Numeral (IsRun)

namespace Decimal

/-- Digits as they are laid out: zero has one, and no other number starts with a zero. -/
structure Digits.Regular (n : Digits) : Prop where
  digits : ∀ c ∈ n.digits, c.isDigit = true
  point_of_nil : n.digits = [] → n.point = 0
  zero : n.digits.head? = some '0' → n.digits = ['0'] ∧ n.point = 1

variable {d : Decimal}

theorem mantissa_pos (h : d.isZero = false) : 0 < d.mantissa := by
  have hmagnitude : d.magnitude ≠ 0 := of_decide_eq_false h
  have hbit : 0 < Nat.pow 2 52 := by decide
  unfold mantissa
  split <;> omega

theorem covers_zero (h : d.isZero = false) {den : Nat} (hden : 0 < den) :
    d.covers 0 den = false := by
  have hunits : 2 ^ d.exponent ≤ d.units := Nat.le_mul_of_pos_left _ (mantissa_pos h)
  have hlow : 0 < d.lowQuarters := by
    have hstep : 0 < 2 ^ d.exponent := Nat.pow_pos (by decide)
    unfold lowQuarters
    simp only [Nat.pow_eq]
    split <;> omega
  have hpos := Nat.mul_pos hlow hden
  unfold covers
  rw [Nat.mul_zero]
  split
  · simp; omega
  · simp

theorem onGrid?_pos {tie : Tie} {scale : Int} {n : Nat} (h : d.isZero = false)
    (hn : d.onGrid? tie scale = some n) : 0 < n := by
  have hdown : 0 < Nat.pow 10 (-scale).toNat := Nat.pow_pos (by decide)
  unfold onGrid? at hn
  dsimp only at hn
  generalize d.units * Nat.pow 10 (-scale).toNat / (unit * Nat.pow 10 scale.toNat) = low at hn
  have hlow (hcovers : d.covers (low * Nat.pow 10 scale.toNat) (Nat.pow 10 (-scale).toNat) = true) :
      0 < low := by
    refine Nat.pos_of_ne_zero fun hzero => ?_
    rw [hzero, Nat.zero_mul, covers_zero h hdown] at hcovers
    cases hcovers
  split at hn
  · next hcovers _ =>
    obtain ⟨-, rfl⟩ | ⟨-, rfl⟩ := ite_eq_iff.1 (Option.some.inj hn)
    · exact Nat.succ_pos low
    · exact hlow hcovers
  · next hcovers _ => exact Option.some.inj hn ▸ hlow hcovers
  · exact Option.some.inj hn ▸ Nat.succ_pos low
  · cases hn

theorem regular_of_toDigits {n : Nat} (h : 0 < n) (point : Int) :
    Digits.Regular ⟨((Nat.toDigits 10 n).reverse.dropWhile (· = '0')).reverse, point⟩ := by
  have hhead := Text.head?_toDigits h
  obtain ⟨c, cs, hc⟩ := List.exists_cons_of_ne_nil (Nat.toDigits_ne_nil (n := n) (b := 10))
  have hdigits := (Numeral.isRun_toDigits n).2
  rw [hc] at hhead hdigits ⊢
  change Digits.Regular ⟨(c :: cs).rdropWhile (· = '0'), point⟩
  have hne : (c :: cs).rdropWhile (· = '0') ≠ [] := fun hnil => hhead <| by
    simpa using (List.rdropWhile_eq_nil_iff.1 hnil) c List.mem_cons_self
  obtain ⟨rest, hrest⟩ := List.rdropWhile_prefix (· = '0') (c :: cs)
  obtain ⟨first, kept, hkept⟩ := List.exists_cons_of_ne_nil hne
  rw [hkept] at hrest ⊢
  obtain ⟨rfl, -⟩ := List.cons.inj hrest
  exact ⟨fun x hx => hdigits x (hrest ▸ List.mem_append_left _ hx), nofun,
    fun hzero => absurd hzero hhead⟩

theorem regular_shortest (tie : Tie) (h : d.isZero = false) : (d.shortest tie).Regular := by
  unfold shortest
  dsimp only
  split
  · next digits scale hfound =>
    obtain ⟨k, -, hk⟩ := List.exists_of_findSome?_eq_some hfound
    obtain ⟨n, hn, hdigits⟩ := Option.map_eq_some_iff.1 hk
    cases hdigits
    exact regular_of_toDigits (onGrid?_pos h hn) _
  · exact ⟨nofun, fun _ => rfl, nofun⟩

/-! The text of a decimal in JSON documents, part by part. -/

namespace Digits

variable {n : Digits}

def wholeDigits (n : Digits) : List Char :=
  if n.point ≤ 0 then ['0']
  else n.digits.take n.point.toNat ++ zeros (n.point - n.digits.length)

def fractionDigits (n : Digits) : List Char :=
  if n.point < n.digits.length then zeros (-n.point) ++ n.digits.drop n.point.toNat else ['0']

theorem positional_eq (n : Digits) :
    n.positional true = n.wholeDigits ++ '.' :: n.fractionDigits := by
  unfold positional wholeDigits fractionDigits
  dsimp only
  split <;> rfl

theorem isDigit_of_mem_zeros {i : Int} {c : Char} (h : c ∈ zeros i) : c.isDigit = true := by
  rw [List.eq_of_mem_replicate h]
  rfl

theorem Regular.isRun_wholeDigits (h : n.Regular) : IsRun n.wholeDigits := by
  unfold wholeDigits
  split
  · exact ⟨nofun, List.forall_mem_singleton.2 rfl⟩
  · next hpoint =>
    have hne : n.digits ≠ [] := fun hnil => hpoint (Int.le_of_eq (h.point_of_nil hnil))
    refine ⟨fun hnil => hne ?_, fun c hc => ?_⟩
    · have htake := (List.append_eq_nil_iff.1 hnil).1
      exact (List.take_eq_nil_iff.1 htake).resolve_left (by omega)
    · obtain hc | hc := List.mem_append.1 hc
      · exact h.digits c (List.mem_of_mem_take hc)
      · exact isDigit_of_mem_zeros hc

theorem Regular.isRun_fractionDigits (h : n.Regular) : IsRun n.fractionDigits := by
  unfold fractionDigits
  split
  · next hlt =>
    refine ⟨fun hnil => ?_, fun c hc => ?_⟩
    · have hdrop := List.drop_eq_nil_iff.1 (List.append_eq_nil_iff.1 hnil).2
      have hzeros : (-n.point).toNat = 0 := by
        simpa [zeros] using (List.append_eq_nil_iff.1 hnil).1
      omega
    · obtain hc | hc := List.mem_append.1 hc
      · exact isDigit_of_mem_zeros hc
      · exact h.digits c (List.mem_of_mem_drop hc)
  · exact ⟨nofun, List.forall_mem_singleton.2 rfl⟩

theorem Regular.length_wholeDigits (h : n.Regular) (hzero : n.wholeDigits.head? = some '0') :
    n.wholeDigits.length = 1 := by
  unfold wholeDigits at hzero ⊢
  split
  · rfl
  · next hpoint =>
    rw [if_neg hpoint] at hzero
    obtain ⟨c, cs, hcs⟩ := List.exists_cons_of_ne_nil (l := n.digits)
      fun hnil => hpoint (Int.le_of_eq (h.point_of_nil hnil))
    obtain ⟨k, hk⟩ : ∃ k, n.point.toNat = k + 1 := ⟨n.point.toNat - 1, by omega⟩
    have hhead : n.digits.head? = some '0' := by
      rw [hcs, hk] at hzero
      rw [hcs]
      exact hzero
    obtain ⟨hdigits, hone⟩ := h.zero hhead
    rw [hdigits, hone]
    rfl

end Digits

end Decimal

namespace Json

variable {n : Numeral} {s : List Char} {sign : Option Char} {d : Decimal}

theorem isNumber_of_proper (h : n.Proper) (hsign : n.sign ≠ some '+')
    (hzero : n.whole.head? = some '0' → n.whole.length = 1) : isNumber n = true := by
  have hwhole : n.whole.isEmpty = false := List.isEmpty_eq_false_iff.2 h.whole.1
  have hfraction : n.fraction ≠ some [] := fun hnil => (h.fraction [] hnil).1 rfl
  have hexponent : n.exponent ≠ some [] := fun hnil => (h.exponent [] hnil).1 rfl
  have hhead : n.whole.head? ≠ some '0' ∨ n.whole.length = 1 := by tauto
  simp only [isNumber, Bool.and_eq_true, Bool.or_eq_true, decide_eq_true_eq, hwhole, Bool.not_false]
  exact ⟨⟨⟨⟨hsign, trivial⟩, hhead⟩, hfraction⟩, hexponent⟩

structure IsDecimal (s : List Char) (n : Numeral) : Prop where
  written : n.written = s
  proper : n.Proper
  number : isNumber n = true
  decimal : n.isWhole = false

theorem isDecimal_positional {digits : Decimal.Digits} (h : digits.Regular)
    (hsign : ∀ c, sign = some c → c = '-') :
    IsDecimal (sign.toList ++ digits.positional true)
      ⟨sign, digits.wholeDigits, some digits.fractionDigits, none, none⟩ := by
  have hproper : Numeral.Proper
      ⟨sign, digits.wholeDigits, some digits.fractionDigits, none, none⟩ :=
    { sign := fun c hc => .inr (hsign c hc)
      whole := h.isRun_wholeDigits
      fraction := fun _ hfraction => Option.some.inj hfraction ▸ h.isRun_fractionDigits
      exponent := nofun
      exponentSign := nofun }
  refine ⟨?_, hproper, isNumber_of_proper hproper (fun hplus => ?_) h.length_wholeDigits, rfl⟩
  · rw [digits.positional_eq]
    simp [Numeral.written, Numeral.fractionText, Numeral.exponentText]
  · cases hsign _ hplus

theorem isDecimal_scientific {first : Char} {rest : List Char} {point : Int}
    (hdigits : ∀ c ∈ first :: rest, c.isDigit = true) (hsign : ∀ c, sign = some c → c = '-') :
    IsDecimal (sign.toList ++ Decimal.Digits.scientific ⟨first :: rest, point⟩)
      ⟨sign, [first], if rest = [] then none else some rest,
        some (if point - 1 < 0 then '-' else '+'), some (Nat.toDigits 10 (point - 1).natAbs)⟩ := by
  have hproper : Numeral.Proper ⟨sign, [first], if rest = [] then none else some rest,
      some (if point - 1 < 0 then '-' else '+'), some (Nat.toDigits 10 (point - 1).natAbs)⟩ :=
    { sign := fun c hc => .inr (hsign c hc)
      whole := ⟨nofun, fun c hc => hdigits c (List.mem_cons.2 (.inl (List.mem_singleton.1 hc)))⟩
      fraction := by
        intro digits hfraction
        dsimp only at hfraction
        split at hfraction
        · cases hfraction
        · next hrest =>
          cases hfraction
          exact ⟨hrest, fun c hc => hdigits c (List.mem_cons_of_mem _ hc)⟩
      exponent := fun _ hexponent => Option.some.inj hexponent ▸ Numeral.isRun_toDigits _
      exponentSign := by
        intro c hc
        refine ⟨?_, nofun⟩
        rw [← Option.some.inj hc]
        split
        · exact .inr rfl
        · exact .inl rfl }
  refine ⟨?_, hproper, isNumber_of_proper hproper (fun hplus => ?_) fun _ => rfl, ?_⟩
  · cases rest <;>
      simp [Numeral.written, Numeral.fractionText, Numeral.exponentText, Decimal.Digits.scientific]
  · cases hsign _ hplus
  · simp [Numeral.isWhole]

theorem write_json_eq (d : Decimal) : ∃ (sign : Option Char) (digits : Decimal.Digits),
    (∀ c, sign = some c → c = '-') ∧ digits.Regular ∧
      d.write .json = sign.toList ++
        if Decimal.Style.json.isPositional (digits.point - 1) then digits.positional true
        else digits.scientific := by
  have hregular :
      (if d.isZero then ⟨['0'], 1⟩ else d.shortest .even : Decimal.Digits).Regular := by
    split
    · exact ⟨List.forall_mem_singleton.2 rfl, nofun, fun _ => ⟨rfl, rfl⟩⟩
    · next hzero => exact Decimal.regular_shortest _ (Bool.not_eq_true _ ▸ hzero)
  cases hsign : d.isNegative with
  | false =>
    refine ⟨none, _, nofun, hregular, ?_⟩
    rw [Decimal.write, hsign]
    rfl
  | true =>
    refine ⟨some '-', _, fun _ hc => (Option.some.inj hc).symm, hregular, ?_⟩
    rw [Decimal.write, hsign]
    rfl

theorem exists_isDecimal (d : Decimal) : ∃ n, IsDecimal (d.write .json) n := by
  obtain ⟨sign, ⟨digits, point⟩, hsign, hregular, hwrite⟩ := write_json_eq d
  rw [hwrite]
  split
  · exact ⟨_, isDecimal_positional hregular hsign⟩
  · next hscientific =>
    cases digits with
    | nil =>
      obtain rfl : point = 0 := hregular.point_of_nil rfl
      exact absurd rfl hscientific
    | cons first rest => exact ⟨_, isDecimal_scientific hregular.digits hsign⟩

/-! Reading a word that is no text. -/

theorem atom?_written {dialect : Dialect} (h : n.Proper) (hnumber : isNumber n = true) :
    atom? dialect n.written = dialect.number? n.written n := by
  have hsplit := Numeral.split?_written h
  have hname {name : List Char} (hname : Numeral.split? name = none) : n.written ≠ name :=
    fun heq => by rw [heq, hname] at hsplit; cases hsplit
  rw [atom?, if_neg (hname rfl), if_neg (hname rfl), if_neg (hname rfl), hsplit,
    Option.filter_some_pos hnumber]
  rfl

def integerNumeral (i : Int) : Numeral :=
  ⟨if i < 0 then some '-' else none, Nat.toDigits 10 i.natAbs, none, none, none⟩

theorem written_integerNumeral (i : Int) : (integerNumeral i).written = Text.ofInt i := by
  by_cases h : i < 0 <;>
    simp [integerNumeral, Numeral.written, Numeral.fractionText, Numeral.exponentText, Text.ofInt,
      h]

theorem proper_integerNumeral (i : Int) : (integerNumeral i).Proper where
  sign c hc := by
    unfold integerNumeral at hc
    dsimp only at hc
    split at hc <;> cases hc
    exact .inr rfl
  whole := Numeral.isRun_toDigits _
  fraction := nofun
  exponent := nofun
  exponentSign := nofun

theorem isNumber_integerNumeral (i : Int) : isNumber (integerNumeral i) = true := by
  refine isNumber_of_proper (proper_integerNumeral i) (fun hplus => ?_) fun hzero => ?_
  · unfold integerNumeral at hplus
    dsimp only at hplus
    split at hplus <;> cases hplus
  · have hi : i.natAbs = 0 := Nat.eq_zero_of_not_pos fun hpos => Text.head?_toDigits hpos hzero
    show (Nat.toDigits 10 i.natAbs).length = 1
    rw [hi]
    rfl

theorem atom?_integer (i : Int64) :
    atom? .data (Text.ofInt i.toInt) = some (.integer i) := by
  have hinteger : integer? (integerNumeral i.toInt) = some i := by
    have hsigned := Text.signed?_eq_some_iff.2 (Text.denotesSigned_ofInt i.toInt)
    rw [← written_integerNumeral] at hsigned
    simpa [integer?, Numeral.isWhole, integerNumeral, Numeral.written, Numeral.fractionText,
      Numeral.exponentText] using hsigned
  have hzero : ((integerNumeral i.toInt).isNegative && i = 0) = false := by
    by_cases hneg : i.toInt < 0
    · have hne : i ≠ 0 := by rintro rfl; exact absurd hneg (by decide)
      simp [hne]
    · simp [integerNumeral, Numeral.isNegative, hneg]
  rw [← written_integerNumeral,
    atom?_written (proper_integerNumeral _) (isNumber_integerNumeral _)]
  simp [Dialect.data, dataNumber?, hinteger, hzero]

/-- Reading inverts writing for a decimal, as far as its digits go. -/
def DigitsReadBack (d : Decimal) : Prop :=
  (Numeral.split? (d.write .json)).bind scaledDecimal? = some d

instance : DecidablePred DigitsReadBack := fun d =>
  inferInstanceAs (Decidable ((Numeral.split? (d.write .json)).bind scaledDecimal? = some d))

/-- Not every decimal is what its digits are read as: `0.1` is, `1.0054825827932459` is not. -/
example : DigitsReadBack ⟨0x3fb999999999999a⟩ ∧ ¬DigitsReadBack ⟨0x3ff01674e79cb6b2⟩ := by
  decide +kernel

theorem atom?_decimal (h : DigitsReadBack d) :
    atom? .data (d.write .json) = some (.decimal d) := by
  obtain ⟨n, hn⟩ := exists_isDecimal d
  have hscaled : scaledDecimal? n = some d := by
    rwa [DigitsReadBack, ← hn.written, Numeral.split?_written hn.proper] at h
  have hinteger : integer? n = none := by simp [integer?, hn.decimal]
  rw [← hn.written, atom?_written hn.proper hn.number]
  simp [Dialect.data, dataNumber?, hinteger, hscaled]

end Json

end Orchestration
