import Orchestration.Proofs.Json.Numbers

namespace Orchestration

open Text (Numeral)

def Scalar.token : Scalar → Json.Token
  | .text s => .text s.toList
  | s => .atom (Json.scalar s)

mutual

def Value.tokens : Value → List Json.Token
  | .scalar s => [s.token]
  | .list items => .mark '[' :: itemTokens items ++ [.mark ']']
  | .map fields => .mark '\x7b' :: fieldTokens fields ++ [.mark '\x7d']

def Value.itemTokens : List Value → List Json.Token
  | [] => []
  | [v] => v.tokens
  | v :: vs => v.tokens ++ .mark ',' :: itemTokens vs

def Value.fieldTokens : List (String × Value) → List Json.Token
  | [] => []
  | [(k, v)] => .text k.toList :: .mark ':' :: v.tokens
  | (k, v) :: rest => .text k.toList :: .mark ':' :: v.tokens ++ .mark ',' :: fieldTokens rest

end

namespace Json

variable {s seen rest : List Char} {c : Char} {scan scan' : Scan} {found : List Token} {n : Numeral}

def IsPlain (c : Char) : Prop := isGap c = false ∧ isMark c = false ∧ c ≠ '"'

/-- Characters that are one token where nothing else stands next to them. -/
def IsWord (s : List Char) : Prop := s ≠ [] ∧ ∀ c ∈ s, IsPlain c

/-- What may stand behind a value: nothing, or a structural character. -/
def Closes (rest : List Char) : Prop := ∀ c ∈ rest.head?, isGap c = false ∧ isMark c = true

instance : DecidablePred IsPlain := fun c =>
  inferInstanceAs (Decidable (isGap c = false ∧ isMark c = false ∧ c ≠ '"'))

theorem isPlain_of_isDigit (h : c.isDigit = true) : IsPlain c := by
  refine ⟨?_, ?_, ?_⟩
  · refine Bool.eq_false_iff.2 fun hgap => ?_
    simp only [isGap, Bool.or_eq_true, decide_eq_true_eq] at hgap
    obtain ((rfl | rfl) | rfl) | rfl := hgap <;> cases h
  · refine Bool.eq_false_iff.2 fun hmark => ?_
    simp only [isMark, List.contains_iff_mem] at hmark
    have hall : "\x7b\x7d[],:".toList.all (!·.isDigit) = true := rfl
    have hnone := List.all_eq_true.1 hall c hmark
    rw [h] at hnone
    cases hnone
  · rintro rfl
    cases h

theorem isWord_written (h : n.Proper) : IsWord n.written := by
  have hrun {s : List Char} (hs : Numeral.IsRun s) : ∀ c ∈ s, IsPlain c :=
    fun c hc => isPlain_of_isDigit (hs.2 c hc)
  have hsign {sign : Option Char} (hs : ∀ c, sign = some c → Numeral.IsSign c) :
      ∀ c ∈ sign.toList, IsPlain c := by
    intro c hc
    obtain rfl | rfl := hs c (Option.mem_toList.1 hc) <;> decide
  have hfraction : ∀ c ∈ n.fractionText, IsPlain c := by
    unfold Numeral.fractionText
    cases hdigits : n.fraction with
    | none => nofun
    | some digits => exact List.forall_mem_cons.2 ⟨by decide, hrun (h.fraction _ hdigits)⟩
  have hexponent : ∀ c ∈ n.exponentText, IsPlain c := by
    unfold Numeral.exponentText
    cases hdigits : n.exponent with
    | none => nofun
    | some digits =>
      refine List.forall_mem_cons.2 ⟨by decide, List.forall_mem_append.2 ⟨hsign ?_, ?_⟩⟩
      · exact fun c hc => (h.exponentSign c hc).1
      · exact hrun (h.exponent _ hdigits)
  refine ⟨fun hnil => h.whole.1 ?_, ?_⟩
  · exact (List.append_eq_nil_iff.1 (List.append_eq_nil_iff.1 hnil).2).1
  · refine List.forall_mem_append.2 ⟨hsign h.sign, List.forall_mem_append.2 ⟨hrun h.whole, ?_⟩⟩
    exact List.forall_mem_append.2 ⟨hfraction, hexponent⟩

theorem isWord_of_all (hne : s ≠ []) (h : s.all (decide <| IsPlain ·) = true) : IsWord s :=
  ⟨hne, fun c hc => of_decide_eq_true (List.all_eq_true.1 h c hc)⟩

theorem isWord_scalar {s : Scalar} (h : ∀ t, s ≠ .text t) : IsWord (scalar s) := by
  cases s with
  | null => exact isWord_of_all (by decide) rfl
  | bool b => cases b <;> exact isWord_of_all (by decide) rfl
  | text t => exact absurd rfl (h t)
  | integer i =>
    rw [scalar, Scalar.plain, String.toList_ofList, ← written_integerNumeral]
    · exact isWord_written (proper_integerNumeral _)
    all_goals nofun
  | decimal d =>
    obtain ⟨n, hn⟩ := exists_isDecimal d
    rw [scalar]
    split
    · exact hn.written ▸ isWord_written hn.proper
    · exact isWord_of_all (by decide) rfl

/-! One character at a time. -/

theorem run?_cons (h : scan.step? c = some (scan', found)) :
    scan.run? (c :: rest) = (scan'.run? rest).map (found ++ ·) := by
  rw [Scan.run?, h, Option.bind_eq_bind, Option.bind_some]
  dsimp only
  cases scan'.run? rest <;> rfl

theorem run?_silent (h : scan.step? c = some (scan', [])) :
    scan.run? (c :: rest) = scan'.run? rest := by simp [run?_cons h]

theorem run?_mark (hgap : isGap c = false) (hmark : isMark c = true) :
    Scan.gap.run? (c :: rest) = (Scan.gap.run? rest).map (.mark c :: ·) := by
  have hstep : Scan.gap.step? c = some (.gap, [.mark c]) := by
    simp [Scan.step?, Scan.outside, hgap, hmark, Scan.pending]
  exact run?_cons hstep

theorem run?_atom (hs : ∀ c ∈ s, IsPlain c) (seen : List Char) :
    (Scan.atom seen).run? (s ++ rest) = (Scan.atom (s.reverse ++ seen)).run? rest := by
  induction s generalizing seen with
  | nil => rfl
  | cons c s ih =>
    obtain ⟨hgap, hmark, hquote⟩ := hs c List.mem_cons_self
    have hstep : (Scan.atom seen).step? c = some (.atom (c :: seen), []) := by
      simp [Scan.step?, Scan.outside, hgap, hmark, hquote]
    rw [List.cons_append, run?_silent hstep, ih fun c hc => hs c (List.mem_cons_of_mem _ hc),
      List.reverse_cons, List.append_assoc, List.singleton_append]

theorem run?_word (hs : IsWord s) (hrest : Closes rest) :
    Scan.gap.run? (s ++ rest) = (Scan.gap.run? rest).map (.atom s :: ·) := by
  obtain ⟨c, s, rfl⟩ := List.exists_cons_of_ne_nil hs.1
  obtain ⟨hgap, hmark, hquote⟩ := hs.2 c List.mem_cons_self
  have hstart : Scan.gap.step? c = some (.atom [c], []) := by
    simp [Scan.step?, Scan.outside, hgap, hmark, hquote]
  rw [List.cons_append, run?_silent hstart,
    run?_atom fun c hc => hs.2 c (List.mem_cons_of_mem _ hc)]
  cases rest with
  | nil => simp [Scan.run?]
  | cons m rest =>
    obtain ⟨hgap, hmark⟩ := hrest m rfl
    have hend (seen : List Char) :
        (Scan.atom seen).step? m = some (.gap, [.atom seen.reverse, .mark m]) := by
      simp [Scan.step?, Scan.outside, hgap, hmark, Scan.pending]
    rw [run?_mark hgap hmark, run?_cons (hend _)]
    cases Scan.gap.run? rest <;> simp

theorem hexDigit?_hexDigit (n : Nat) : hexDigit? (hexDigit n) = some (n % 16) := by
  have hall : ∀ m < 16, hexDigit? (Nat.digitChar m) = some m := by decide
  exact hall (n % 16) (Nat.mod_lt n (by decide))

theorem run?_control (h : c.toNat < 0x20) (seen rest : List Char) :
    (Scan.text seen).run?
        ('\\' :: 'u' :: '0' :: '0' :: hexDigit (c.toNat / 16) :: hexDigit c.toNat :: rest) =
      (Scan.text (c :: seen)).run? rest := by
  have hhigh : (Scan.hex seen none 0 2).step? (hexDigit (c.toNat / 16)) =
      some (.hex seen none (c.toNat / 16) 1, []) := by
    simp [Scan.step?, hexDigit?_hexDigit, Nat.mod_eq_of_lt (show c.toNat / 16 < 16 by omega)]
  have hlow : (Scan.hex seen none (c.toNat / 16) 1).step? (hexDigit c.toNat) =
      some (.text (c :: seen), []) := by
    have hsum : 16 * (c.toNat / 16) + c.toNat % 16 = c.toNat := Nat.div_add_mod _ _
    have hunit : Scan.unit? seen none c.toNat = some (.text (c :: seen)) := by
      simp [Scan.unit?, Nat.not_le_of_lt (show c.toNat < 0xD800 by omega),
        Nat.not_le_of_lt (show c.toNat < 0xDC00 by omega)]
    simp [Scan.step?, hexDigit?_hexDigit, hsum, hunit]
  calc (Scan.text seen).run? _
    _ = (Scan.escape seen).run? _ := run?_silent rfl
    _ = (Scan.hex seen none 0 4).run? _ := run?_silent rfl
    _ = (Scan.hex seen none 0 3).run? _ := run?_silent rfl
    _ = (Scan.hex seen none 0 2).run? _ := run?_silent rfl
    _ = (Scan.hex seen none (c.toNat / 16) 1).run? _ := run?_silent hhigh
    _ = (Scan.text (c :: seen)).run? rest := run?_silent hlow

theorem run?_escape (c : Char) (seen rest : List Char) :
    (Scan.text seen).run? (escape c ++ rest) = (Scan.text (c :: seen)).run? rest := by
  unfold escape
  split
  case h_8 hquote hbackslash _ _ _ _ _ =>
    split
    · next hcontrol => exact run?_control hcontrol seen rest
    · next hcontrol =>
      have hstep : (Scan.text seen).step? c = some (.text (c :: seen), []) := by
        rw [Scan.step?, if_neg hquote, if_neg hbackslash, if_neg hcontrol]
      exact run?_silent hstep
  all_goals exact (run?_silent rfl).trans (run?_silent rfl)

theorem run?_flatMap_escape (s seen rest : List Char) :
    (Scan.text seen).run? (s.flatMap escape ++ rest) =
      (Scan.text (s.reverse ++ seen)).run? rest := by
  induction s generalizing seen with
  | nil => rfl
  | cons c s ih => simp [run?_escape, ih]

theorem run?_quote (s : String) (rest : List Char) :
    Scan.gap.run? (quote s ++ rest) = (Scan.gap.run? rest).map (.text s.toList :: ·) := by
  have hopen : Scan.gap.step? '"' = some (.text [], []) := rfl
  have hclose (seen : List Char) : (Scan.text seen).step? '"' = some (.gap, [.text seen.reverse]) :=
    rfl
  rw [quote, List.cons_append, List.cons_append, List.append_assoc, run?_silent hopen,
    run?_flatMap_escape, List.singleton_append, run?_cons (hclose _)]
  cases Scan.gap.run? rest <;> simp

/-! Whole values. -/

def ScansTo (s : List Char) (tokens : List Token) : Prop :=
  ∀ rest, Closes rest → Scan.gap.run? (s ++ rest) = (Scan.gap.run? rest).map (tokens ++ ·)

namespace ScansTo

variable {s' : List Char} {tokens tokens' : List Token}

theorem nil : ScansTo [] [] := fun rest _ => by simp

theorem scalar (s : Scalar) : ScansTo (scalar s) [s.token] := fun rest hrest => by
  cases s with
  | text t => exact run?_quote t rest
  | _ => exact run?_word (isWord_scalar (by nofun)) hrest

theorem mark (hmark : isMark c = true) (hgap : isGap c = false) (h : ScansTo s tokens) :
    ScansTo (c :: s) (.mark c :: tokens) := fun rest hrest => by
  rw [List.cons_append, run?_mark hgap hmark, h rest hrest, Option.map_map]
  rfl

theorem append_mark (h : ScansTo s tokens) (hmark : isMark c = true) (hgap : isGap c = false)
    (h' : ScansTo s' tokens') : ScansTo (s ++ c :: s') (tokens ++ .mark c :: tokens') := by
  intro rest hrest
  have hcloses : Closes (c :: s' ++ rest) := fun _ hc => Option.some.inj hc ▸ ⟨hgap, hmark⟩
  rw [List.append_assoc, h _ hcloses, h'.mark hmark hgap rest hrest, Option.map_map]
  exact congrFun (congrArg _ (funext fun more => (List.append_assoc ..).symm)) _

theorem entry (key : String) (h : ScansTo s tokens) :
    ScansTo (quote key ++ ':' :: s) (.text key.toList :: .mark ':' :: tokens) :=
  (scalar (.text key)).append_mark rfl rfl h

end ScansTo

mutual

theorem scansTo_compact : ∀ v : Value, ScansTo (compact v) v.tokens
  | .scalar s => .scalar s
  | .list items => .mark rfl rfl ((scansTo_compactItems items).append_mark rfl rfl .nil)
  | .map fields => .mark rfl rfl ((scansTo_compactFields fields).append_mark rfl rfl .nil)

theorem scansTo_compactItems : ∀ items : List Value,
    ScansTo (compactItems items) (Value.itemTokens items)
  | [] => .nil
  | [v] => scansTo_compact v
  | v :: w :: vs => (scansTo_compact v).append_mark rfl rfl (scansTo_compactItems (w :: vs))

theorem scansTo_compactFields : ∀ fields : List (String × Value),
    ScansTo (compactFields fields) (Value.fieldTokens fields)
  | [] => .nil
  | [(k, v)] => .entry k (scansTo_compact v)
  | (k, v) :: e :: rest =>
    (ScansTo.entry k (scansTo_compact v)).append_mark rfl rfl (scansTo_compactFields (e :: rest))

end

theorem tokens?_compact (v : Value) : tokens? (compact v) = some v.tokens := by
  have hrun := scansTo_compact v [] nofun
  rw [List.append_nil, Scan.run?, Option.map_some, List.append_nil] at hrun
  exact hrun

end Json

end Orchestration
