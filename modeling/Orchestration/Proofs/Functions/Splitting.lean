import Orchestration.Proofs.Evaluation
import Orchestration.Proofs.Text.Numerals
import Orchestration.Proofs.Text.Pieces

namespace Orchestration

namespace Value

/-- A value that counts pieces: an integer, or a text that denotes one. -/
inductive IsIndex : Value → Int → Prop
  | integer (i : Int64) : IsIndex (.integer i) i.toInt
  | text {s : String} {i : Int64} : Text.DenotesSigned s.toList i.toInt → IsIndex (.text s) i.toInt

end Value

namespace Writing

variable {d s : String} {parts texts : List String} {function : String} {v : Value}

theorem cuts_split (hd : d ≠ "") (s : String) :
    Text.Cuts d.toList s.toList ((split d s).map String.toList) := by
  have hlist : (split d s).map String.toList = Text.pieces d.toList s.toList := by
    rw [split, List.map_map]
    exact List.map_id'' (fun _ => String.toList_ofList) _
  rw [hlist]
  exact Text.cuts_pieces (by simpa using hd) _

theorem not_found_split (hd : d ≠ "") {part : String} (h : part ∈ split d s) :
    ¬d.toList <:+: part.toList :=
  (cuts_split hd s).not_found (by simpa using hd) _ (List.mem_map_of_mem h)

theorem join_split (hd : d ≠ "") (s : String) : join d (split d s) = s := by
  rw [join, Text.join, (cuts_split hd s).intercalate_eq, String.ofList_toList]

theorem split_join (hd : d.length = 1) (hne : texts ≠ [])
    (h : ∀ text ∈ texts, ¬d.toList <:+: text.toList) : split d (join d texts) = texts := by
  obtain ⟨c, hc⟩ : ∃ c, d.toList = [c] := List.length_eq_one_iff.1 (String.length_toList ▸ hd)
  have hcuts := cuts_split (d := d) (by rintro rfl; cases hd) (join d texts)
  have htexts : ∀ text ∈ texts.map String.toList, c ∉ text := by
    rw [List.forall_mem_map]
    intro text htext hmem
    obtain ⟨l, r, hsides⟩ := List.append_of_mem hmem
    exact h text htext ⟨l, r, by rw [hc, hsides, List.append_assoc, List.singleton_append]⟩
  have hjoined : (join d texts).toList = [c].intercalate (texts.map String.toList) := by
    rw [join, Text.join, String.toList_ofList, hc]
  rw [hjoined, hc] at hcuts
  have heq := hcuts.unique (Text.cuts_intercalate (by simpa using hne) htexts)
  exact List.map_injective_iff.2 (fun _ _ => String.toList_inj.1) heq

theorem pieceIndex?_eq_some_iff {i : Int} : pieceIndex? v = some i ↔ v.IsIndex i := by
  constructor
  · intro h
    cases v with
    | scalar scalar =>
      cases scalar with
      | integer i =>
        cases h
        exact .integer i
      | text s =>
        obtain ⟨i, hi, rfl⟩ := Option.map_eq_some_iff.1 h
        exact .text (Text.signed?_eq_some_iff.1 hi)
      | _ => cases h
    | _ => cases h
  · intro h
    cases h with
    | integer => rfl
    | text hs => exact congrArg (Option.map Int64.toInt) (Text.signed?_eq_some_iff.2 hs)

theorem piece_of_isIndex {i : Nat} {part : String} (hi : v.IsIndex i)
    (hpart : parts[i]? = some part) : piece function parts v = .ok (.text part) := by
  rw [piece, pieceIndex?_eq_some_iff.2 hi, Option.bind_some, if_pos (Int.natCast_nonneg i),
    Int.toNat_natCast, hpart]
  rfl

theorem piece_of_not_isIndex (h : ∀ i : Nat, v.IsIndex i → parts.length ≤ i) :
    ∃ e, piece function parts v = .error e := by
  have hnone : ((pieceIndex? v).bind fun i => if 0 ≤ i then parts[i.toNat]? else none) = none := by
    refine Option.bind_eq_none_iff.2 fun i hi => ?_
    split
    · next hnonneg =>
      obtain ⟨n, rfl⟩ := Int.eq_ofNat_of_zero_le hnonneg
      exact List.getElem?_eq_none (h n (pieceIndex?_eq_some_iff.1 hi))
    · rfl
  rw [piece, hnone]
  exact ⟨_, rfl⟩

end Writing

namespace Stack

open Evaluation (Site operand arguments)

variable {stack : Stack} {c : Call} {args : Snippet} {d s : String} {index : Option Value}
  {texts : List String}

structure Splits (stack : Stack) (c : Call) (args : Snippet) (d s : String)
    (index : Option Value) : Prop where
  own : c.stack = stack.id
  isSplit : c.fn = .split
  args : ∃ delimiter text rest, args = .list (delimiter :: text :: rest) ∧
    stack.value delimiter = .ok (.text d) ∧ stack.value text = .ok (.text s) ∧
    (index = none ∧ rest = [] ∨
      ∃ i v, index = some v ∧ rest = [i] ∧ stack.value i = .ok v)

structure Joins (stack : Stack) (c : Call) (args : Snippet) (d : String)
    (texts : List String) : Prop where
  own : c.stack = stack.id
  isJoin : ∃ multiple, c.fn = .join multiple
  args : ∃ delimiter list, args = .list [delimiter, list] ∧
    stack.value delimiter = .ok (.text d) ∧ stack.value list = .ok (.texts texts)

theorem value_split (h : stack.Splits c args d s index) (hd : d ≠ "") :
    stack.value (.call c args) =
      index.elim (.ok (.texts (Writing.split d s))) (Writing.piece c.name (Writing.split d s)) := by
  obtain ⟨hown, hfn, delimiter, text, rest, rfl, hdelimiter, htext, hrest⟩ := h
  have hempty : d.isEmpty = false := by simpa using hd
  rw [value_own hown, hfn, Site.value, Site.split, arguments_items]
  simp only [List.map_cons]
  rw [operand_bind_run hdelimiter]
  show ((operand stack text).value >>= _).run stack.truthOf = _
  rw [operand_bind_run htext]
  show (if d.isEmpty = true then _ else _ : Inquiry Value).run stack.truthOf = _
  rw [hempty]
  obtain ⟨rfl, rfl⟩ | ⟨i, v, rfl, rfl, hv⟩ := hrest
  · rfl
  · show ((operand stack i).value >>= _).run stack.truthOf = _
    rw [operand_bind_run hv]
    rfl

theorem value_joining {multiple : Bool} {delimiter list : Snippet} {v : Value}
    (hown : c.stack = stack.id) (hfn : c.fn = .join multiple)
    (hdelimiter : stack.value delimiter = .ok (.text d)) (hv : stack.value list = .ok v)
    (htexts : Writing.itemTexts c.name multiple v = .ok texts) :
    stack.value (.call c (.list [delimiter, list])) = .ok (.text (Writing.join d texts)) := by
  have hlists : Inquiry.run stack.truthOf ([operand stack list].mapM fun o => do
      Writing.itemTexts c.name multiple (← o.value)) = Except.ok [texts] := by
    rw [Inquiry.run_mapM]
    refine Run.mapM_eq_ok_iff.2 (.cons ?_ .nil)
    rw [operand_bind_run hv]
    exact htexts
  rw [value_own hown, hfn, Site.value, Site.join, arguments_items]
  simp only [List.map_cons, List.map_nil]
  rw [operand_bind_run hdelimiter, Inquiry.run_bind]
  refine (Run.ok_bind rfl).trans ?_
  rw [Inquiry.run_bind, Run.ok_bind hlists, List.flatten_singleton]
  rfl

theorem value_join (h : stack.Joins c args d texts) :
    stack.value (.call c args) = .ok (.text (Writing.join d texts)) := by
  obtain ⟨hown, ⟨multiple, hfn⟩, delimiter, list, rfl, hdelimiter, htexts⟩ := h
  refine value_joining hown hfn hdelimiter htexts (Run.mapM_eq_ok_iff.2 ?_)
  rw [List.forall₂_map_left_iff, List.forall₂_same]
  exact fun _ _ => rfl

/-- A delimiter that is not empty is in none of the pieces of a text and joins them to the text
again, and an index chooses one of the pieces or fails. Texts that a delimiter of one character is in
none of are the pieces of what it joins them to. -/
theorem splitting_inverts_joining (stack : Stack) (hd : d ≠ "") :
    (∀ s, ∃ parts : List String, (∀ part ∈ parts, ¬d.toList <:+: part.toList) ∧
      (∀ c args, stack.Splits c args d s none →
        stack.value (.call c args) = .ok (.texts parts)) ∧
      (∀ c args, stack.Joins c args d parts → stack.value (.call c args) = .ok (.text s)) ∧
      ∀ c args v, stack.Splits c args d s (some v) →
        (∀ (i : Nat) part, v.IsIndex i → parts[i]? = some part →
          stack.value (.call c args) = .ok (.text part)) ∧
        ((∀ i : Nat, v.IsIndex i → parts.length ≤ i) →
          ∃ e, stack.value (.call c args) = .error e)) ∧
      (d.length = 1 → ∀ texts, texts ≠ [] → (∀ text ∈ texts, ¬d.toList <:+: text.toList) →
        ∀ c args, stack.Joins c args d texts →
          ∃ s, stack.value (.call c args) = .ok (.text s) ∧
            ∀ c' args', stack.Splits c' args' d s none →
              stack.value (.call c' args') = .ok (.texts texts)) := by
  refine ⟨fun s => ⟨Writing.split d s, fun _ => Writing.not_found_split hd, ?_, ?_, ?_⟩, ?_⟩
  · intro c args h
    exact value_split h hd
  · intro c args h
    rw [value_join h, Writing.join_split hd]
  · intro c args v h
    rw [value_split h hd]
    exact ⟨fun i part => Writing.piece_of_isIndex, Writing.piece_of_not_isIndex⟩
  · intro hone texts hne hnone c args h
    refine ⟨_, value_join h, fun c' args' h' => ?_⟩
    rw [value_split h' hd, Writing.split_join hone hne hnone]
    rfl

theorem splitting_inverts_joining_comma :
    let split (rest : List Value) : Value :=
      .map [("str_split", .list (.text "," :: .text ",a,b" :: rest))]
    let joined : Value := .map [("list_join", .list [.text ",", .texts ["x", ""]])]
    ∃ t stack c args c₁ c₂ args₂ c₃ c₄ args₄,
      Template.ofValue (.map [("heat_template_version", .text "2017-09-01")]) = .ok t ∧
      make ⟨"s"⟩ "s" t [] (StaticResources.toResources []) = .ok stack ∧
      t.snippet .ordinary stack.id (split []) = .ok (.call c args) ∧
      t.snippet .ordinary stack.id (.map [("list_join", .list [.text ",", split []])]) =
        .ok (.call c₁ (.list [.text ",", .call c args])) ∧
      t.snippet .ordinary stack.id (split [.text "+2"]) = .ok (.call c₂ args₂) ∧
      t.snippet .ordinary stack.id (.map [("str_split", .list [.text ",", joined])]) =
        .ok (.call c₃ (.list [.text ",", .call c₄ args₄])) ∧
      stack.value (.call c args) = .ok (.texts ["", "a", "b"]) ∧
      stack.value (.call c₁ (.list [.text ",", .call c args])) = .ok (.text ",a,b") ∧
      stack.value (.call c₂ args₂) = .ok (.text "b") ∧
      stack.value (.call c₃ (.list [.text ",", .call c₄ args₄])) = .ok (.texts ["x", ""]) := by
  intro split joined
  have hcomma (stack : Stack) : stack.value (.text ",") = .ok (.text ",") :=
    value_of_isPlain _ _ rfl
  have hvalues {stack : Stack} {c c₁ c₂ c₃ c₄ : Call} {args args₂ args₄ : Snippet}
      (h : stack.Splits c args "," ",a,b" none)
      (h₁ : c₁.stack = stack.id ∧ c₁.fn = .join true)
      (h₂ : stack.Splits c₂ args₂ "," ",a,b" (some (.text "+2")))
      (h₃ : c₃.stack = stack.id ∧ c₃.fn = .split) (h₄ : stack.Joins c₄ args₄ "," ["x", ""]) :
      stack.value (.call c args) = .ok (.texts ["", "a", "b"]) ∧
        stack.value (.call c₁ (.list [.text ",", .call c args])) = .ok (.text ",a,b") ∧
        stack.value (.call c₂ args₂) = .ok (.text "b") ∧
        stack.value (.call c₃ (.list [.text ",", .call c₄ args₄])) = .ok (.texts ["x", ""]) := by
    obtain ⟨hsplit, hjoin⟩ := splitting_inverts_joining stack (d := ",") (by decide)
    obtain ⟨parts, -, hparts, hjoined, hindex⟩ := hsplit ",a,b"
    have hvalue : stack.value (.call c args) = .ok (.texts ["", "a", "b"]) :=
      value_split h (by decide)
    obtain rfl : parts = ["", "a", "b"] := by
      have htexts := Value.list.inj (Except.ok.inj ((hparts c args h).symm.trans hvalue))
      exact List.map_injective_iff.2 (fun _ _ heq => by cases heq; rfl) htexts
    obtain ⟨s, hs, hpieces⟩ := hjoin rfl ["x", ""] (by decide) (by decide) c₄ args₄ h₄
    refine ⟨hvalue, ?_, ?_, ?_⟩
    · exact hjoined _ _ ⟨h₁.1, ⟨_, h₁.2⟩, _, _, rfl, hcomma stack, hvalue⟩
    · exact (hindex _ _ _ h₂).1 2 "b" (.text (i := 2) (.plus (Text.denotes_toDigits 2))) rfl
    · exact hpieces _ _ ⟨h₃.1, h₃.2, _, _, _, rfl, hcomma stack, hs, .inl ⟨rfl, rfl⟩⟩
  refine ⟨_, _, _, _, _, _, _, _, _, _, rfl, rfl, rfl, rfl, rfl, rfl,
    hvalues ?_ ⟨rfl, rfl⟩ ?_ ⟨rfl, rfl⟩ ?_⟩
  · exact ⟨rfl, rfl, _, _, _, rfl, hcomma _, value_of_isPlain _ _ rfl, .inl ⟨rfl, rfl⟩⟩
  · exact ⟨rfl, rfl, _, _, _, rfl, hcomma _, value_of_isPlain _ _ rfl,
      .inr ⟨_, _, rfl, rfl, value_of_isPlain _ _ rfl⟩⟩
  · exact ⟨rfl, ⟨true, rfl⟩, _, _, rfl, hcomma _, value_of_isPlain _ _ rfl⟩

end Stack

end Orchestration
