import Mathlib.Order.Bounds.Basic
import Orchestration.Proofs.Text.Segments
import Orchestration.Proofs.Text.Trimming
import Orchestration.Proofs.Text.Widths

namespace Orchestration.Text

/-- A text and its lines. A line feed ends a line, with a carriage return in front of it, and the
last line may lack its end. -/
inductive Lines : List Char → List (List Char) → Prop
  | nil : Lines [] []
  | last {line} : line ≠ [] → '\n' ∉ line → Lines line [line]
  | lineFeed {line rest ls} : '\n' ∉ line → line.getLast? ≠ some '\r' → Lines rest ls →
    Lines (line ++ '\n' :: rest) (line :: ls)
  | carriageReturn {line rest ls} : '\n' ∉ line → Lines rest ls →
    Lines (line ++ '\r' :: '\n' :: rest) (line :: ls)

/-- What is kept of a line: nothing if it is blank, and otherwise what follows `n` bytes of white
space. -/
inductive Kept (n : Nat) : List Char → List Char → Prop
  | blank {line} : isBlankLine line = true → Kept n line []
  | rest {blanks kept} : isBlankLine (blanks ++ kept) = false → AllBlank blanks →
    width blanks = n → Kept n (blanks ++ kept) kept

def indents (ls : List (List Char)) : Set Nat :=
  {n | ∃ line ∈ ls, isBlankLine line = false ∧ width (line.takeWhile isBlank) = n}

variable {s t line row rest : List Char} {ls rows : List (List Char)} {n : Nat}

theorem Lines.cons (hline : '\n' ∉ line) (h : Lines rest ls) : Lines (line ++ '\n' :: rest)
    ((if line.getLast? = some '\r' then line.dropLast else line) :: ls) := by
  split
  · next hreturn =>
    obtain ⟨init, rfl⟩ := List.getLast?_eq_some_iff.1 hreturn
    rw [List.dropLast_concat, List.append_assoc]
    exact .carriageReturn (fun hmem => hline (List.mem_append_left _ hmem)) h
  · next hreturn => exact .lineFeed hline hreturn h

theorem not_mem_of_not_found {c : Char} (h : ¬[c] <:+: line) : c ∉ line :=
  fun hc => h ((List.singleton_infix_iff c line).2 hc)

theorem lines_of_cuts (h : Cuts ['\n'] s ls) :
    Lines s (match ls.getLast? with
      | some [] | none =>
        ls.dropLast.map fun l => if l.getLast? = some '\r' then l.dropLast else l
      | some l =>
        (ls.dropLast.map fun l => if l.getLast? = some '\r' then l.dropLast else l) ++ [l]) := by
  induction h with
  | @last line hnone =>
    cases line with
    | nil => exact .nil
    | cons c cs => exact .last (List.cons_ne_nil c cs) (not_mem_of_not_found hnone)
  | @next before after ps hleft hafter ih =>
    have hbefore := not_mem_of_not_found (hleft.not_found (List.cons_ne_nil _ _))
    obtain ⟨p, ps, rfl⟩ := List.exists_cons_of_ne_nil hafter.ne_nil
    rw [List.getLast?_cons_cons, List.dropLast_cons_cons, List.map_cons]
    generalize (p :: ps).getLast? = final at ih ⊢
    match final with
    | none => exact .cons hbefore ih
    | some [] => exact .cons hbefore ih
    | some (c :: cs) => exact .cons hbefore ih

theorem lines_lines (s : List Char) : Lines s (lines s) :=
  lines_of_cuts (cuts_pieces (by decide) s)

theorem indentWidth_eq (line : List Char) :
    indentWidth line = width (line.takeWhile isBlank) := by
  rw [indentWidth, foldl_utf8Size, Nat.zero_add]

theorem mem_indents_iff :
    n ∈ indents ls ↔ n ∈ (ls.filter fun l => !isBlankLine l).map indentWidth := by
  simp [indents, indentWidth_eq, and_assoc]

theorem isLeast_sharedIndent (h : (indents ls).Nonempty) :
    IsLeast (indents ls) (sharedIndent ls) := by
  obtain ⟨n, hn⟩ := h
  obtain ⟨least, hleast⟩ := Option.isSome_iff_exists.1
    (List.isSome_min?_of_mem (mem_indents_iff.1 hn))
  obtain ⟨hmem, hle⟩ := List.min?_eq_some_iff.1 hleast
  rw [sharedIndent, hleast]
  exact ⟨mem_indents_iff.2 hmem, fun m hm => hle m (mem_indents_iff.1 hm)⟩

theorem sharedIndent_le (hline : line ∈ ls) (hshown : isBlankLine line = false) :
    sharedIndent ls ≤ width (line.takeWhile isBlank) := by
  have hmem : width (line.takeWhile isBlank) ∈ indents ls := ⟨line, hline, hshown, rfl⟩
  exact (isLeast_sharedIndent ⟨_, hmem⟩).2 hmem

theorem allBlank_of_width_le {blanks : List Char} (h : blanks <+: line)
    (hwidth : width blanks ≤ width (line.takeWhile isBlank)) : AllBlank blanks := by
  have hblanks := prefix_of_width_le h (List.takeWhile_prefix isBlank) hwidth
  exact fun c hc => List.mem_takeWhile_imp (hblanks.subset hc)

theorem kept_iff_of_blank (hblank : isBlankLine line = true) : Kept n line row ↔ row = [] := by
  constructor
  · intro h
    cases h with
    | blank => rfl
    | rest hshown => cases hblank.symm.trans hshown
  · rintro rfl
    exact .blank hblank

theorem kept_iff_of_shown (hshown : isBlankLine line = false)
    (hn : n ≤ width (line.takeWhile isBlank)) : Kept n line row ↔ dropBytes n line = some row := by
  rw [dropBytes_eq_some_iff]
  constructor
  · intro h
    cases h with
    | blank hblank => cases hblank.symm.trans hshown
    | @rest blanks _ _ _ hwidth => exact ⟨blanks, rfl, hwidth⟩
  · rintro ⟨blanks, rfl, hwidth⟩
    exact .rest hshown (allBlank_of_width_le (List.prefix_append blanks row) (hwidth ▸ hn)) hwidth

theorem exists_kept_iff (hn : isBlankLine line = false → n ≤ width (line.takeWhile isBlank)) :
    (∃ row, Kept n line row) ↔
      (isBlankLine line = false → String.Pos.Raw.IsValid (String.ofList line) ⟨n⟩) := by
  cases h : isBlankLine line with
  | true => simp [kept_iff_of_blank h]
  | false => simp [kept_iff_of_shown h (hn h), exists_dropBytes_iff]

theorem Kept.trimStart_eq (h : Kept n line row) : trimStart row = trimStart line := by
  cases h with
  | blank hblank => exact (List.dropWhile_eq_nil_iff.2 (List.all_eq_true.1 hblank)).symm
  | rest _ hblanks => exact (List.dropWhile_append_of_pos hblanks).symm

def dedentLine (n : Nat) (line : List Char) : Option (List Char) :=
  if isBlankLine line then some ['\n'] else (dropBytes n line).map (· ++ ['\n'])

theorem dedent_eq (s : List Char) :
    dedent s = ((lines s).mapM (dedentLine (sharedIndent (lines s)))).map List.flatten := rfl

theorem dedentLine_eq_some_iff
    (hn : isBlankLine line = false → n ≤ width (line.takeWhile isBlank)) :
    dedentLine n line = some t ↔ ∃ row, Kept n line row ∧ row ++ ['\n'] = t := by
  cases h : isBlankLine line with
  | true => simp [dedentLine, h, kept_iff_of_blank h]
  | false => simp [dedentLine, h, kept_iff_of_shown h (hn h)]

theorem mapM_dedentLine_eq_some_iff {ts : List (List Char)}
    (hn : ∀ line ∈ ls, isBlankLine line = false → n ≤ width (line.takeWhile isBlank)) :
    ls.mapM (dedentLine n) = some ts ↔
      ∃ rows, List.Forall₂ (Kept n) ls rows ∧ rows.map (· ++ ['\n']) = ts := by
  induction ls generalizing ts with
  | nil => simp [List.forall₂_nil_left_iff]
  | cons line ls ih =>
    obtain ⟨hline, hls⟩ := List.forall_mem_cons.1 hn
    simp only [List.mapM_cons, Option.bind_eq_bind, Option.bind_eq_some_iff,
      dedentLine_eq_some_iff hline, ih hls]
    constructor
    · rintro ⟨t, ⟨row, hrow, rfl⟩, ts, ⟨rows, hrows, rfl⟩, ⟨⟩⟩
      exact ⟨row :: rows, .cons hrow hrows, rfl⟩
    · rintro ⟨_, hrows, rfl⟩
      cases hrows with
      | @cons _ row _ rows hrow hrows =>
        exact ⟨_, ⟨row, hrow, rfl⟩, _, ⟨rows, hrows, rfl⟩, rfl⟩

theorem dedent_eq_some_iff : dedent s = some t ↔
    ∃ rows, List.Forall₂ (Kept (sharedIndent (lines s))) (lines s) rows ∧
      rows.flatMap (· ++ ['\n']) = t := by
  have hlines (ts : List (List Char)) :
      (lines s).mapM (dedentLine (sharedIndent (lines s))) = some ts ↔ _ :=
    mapM_dedentLine_eq_some_iff fun line hline => sharedIndent_le hline
  rw [dedent_eq, Option.map_eq_some_iff]
  constructor
  · rintro ⟨ts, hts, rfl⟩
    obtain ⟨rows, hrows, rfl⟩ := (hlines ts).1 hts
    exact ⟨rows, hrows, List.flatMap_def ..⟩
  · rintro ⟨rows, hrows, rfl⟩
    exact ⟨_, (hlines _).2 ⟨rows, hrows, rfl⟩, (List.flatMap_def ..).symm⟩

theorem exists_forall₂_iff {α β : Type} {R : α → β → Prop} {as : List α} :
    (∃ bs, List.Forall₂ R as bs) ↔ ∀ a ∈ as, ∃ b, R a b := by
  induction as with
  | nil => exact ⟨fun _ _ => nofun, fun _ => ⟨[], .nil⟩⟩
  | cons a as ih =>
    rw [List.forall_mem_cons, ← ih]
    constructor
    · rintro ⟨_, h⟩
      cases h with
      | cons hb hbs => exact ⟨⟨_, hb⟩, _, hbs⟩
    · rintro ⟨⟨b, hb⟩, bs, hbs⟩
      exact ⟨b :: bs, .cons hb hbs⟩

theorem exists_dedent_iff : (∃ t, dedent s = some t) ↔
    ∀ line ∈ lines s, isBlankLine line = false →
      String.Pos.Raw.IsValid (String.ofList line) ⟨sharedIndent (lines s)⟩ := by
  have hrows : (∃ t, dedent s = some t) ↔
      ∃ rows, List.Forall₂ (Kept (sharedIndent (lines s))) (lines s) rows := by
    simp only [dedent_eq_some_iff]
    exact ⟨fun ⟨_, rows, hrows, _⟩ => ⟨rows, hrows⟩, fun ⟨rows, hrows⟩ => ⟨_, rows, hrows, rfl⟩⟩
  rw [hrows, exists_forall₂_iff]
  exact forall₂_congr fun line hline => exists_kept_iff (sharedIndent_le hline)

/-- Where all white space in front of the lines is of one width in bytes, the shared indentation is
so many characters of it on every line. -/
theorem isValid_sharedIndent {w : Nat} (hw : ∀ line ∈ ls, isBlankLine line = false →
    ∀ c ∈ line.takeWhile isBlank, c.utf8Size = w) (hline : line ∈ ls)
    (hshown : isBlankLine line = false) :
    String.Pos.Raw.IsValid (String.ofList line) ⟨sharedIndent ls⟩ := by
  have hle := sharedIndent_le hline hshown
  obtain ⟨⟨least, hleast, hshown', hwidth⟩, -⟩ :=
    isLeast_sharedIndent ⟨_, line, hline, hshown, rfl⟩
  rw [← hwidth, width_of_forall (hw least hleast hshown'),
    width_of_forall (hw line hline hshown)] at hle
  rw [isValid_iff, ← hwidth, width_of_forall (hw least hleast hshown')]
  -- the narrowest line has `count` characters in front, and so many are found on the other one
  generalize (least.takeWhile isBlank).length = count at hle
  obtain ⟨rest, hrest⟩ := (List.take_prefix count (line.takeWhile isBlank)).trans
    (List.takeWhile_prefix isBlank)
  refine ⟨_, rest, hrest.symm, ?_⟩
  have hblanks (c : Char) (hc : c ∈ (line.takeWhile isBlank).take count) : c.utf8Size = w :=
    hw line hline hshown c (List.mem_of_mem_take hc)
  rw [width_of_forall hblanks, List.length_take, ← Nat.mul_min_mul_right, Nat.min_eq_left hle]

/-- A text is dedented line by line. Blank lines become empty, and the others lose as many bytes as
the least white space in front of one of them takes, all of it white space. There is a result
exactly if on each of these lines a boundary between characters follows the bytes, as it does where
all white space in front of them is of one width. -/
theorem dedent_takes_blanks (s : List Char) :
    Lines s (lines s) ∧
    ((indents (lines s)).Nonempty → IsLeast (indents (lines s)) (sharedIndent (lines s))) ∧
    ((∃ t, dedent s = some t) ↔ ∀ line ∈ lines s, isBlankLine line = false →
      String.Pos.Raw.IsValid (String.ofList line) ⟨sharedIndent (lines s)⟩) ∧
    (∀ t, dedent s = some t → ∃ rows,
      List.Forall₂ (fun line row => Kept (sharedIndent (lines s)) line row ∧
        trimStart row = trimStart line) (lines s) rows ∧ rows.flatMap (· ++ ['\n']) = t) ∧
    ∀ w, (∀ line ∈ lines s, isBlankLine line = false →
      ∀ c ∈ line.takeWhile isBlank, c.utf8Size = w) → ∃ t, dedent s = some t := by
  refine ⟨lines_lines s, isLeast_sharedIndent, exists_dedent_iff, fun t ht => ?_, fun w hw => ?_⟩
  · obtain ⟨rows, hrows, ht⟩ := dedent_eq_some_iff.1 ht
    exact ⟨rows, hrows.imp fun _ _ hrow => ⟨hrow, hrow.trimStart_eq⟩, ht⟩
  · exact exists_dedent_iff.2 fun line hline hshown => isValid_sharedIndent hw hline hshown

theorem dedent_takes_blanks_wide :
    let s := ['\u3000', ' ', 'a', '\n', ' ', '\n', '\u3000', 'b']
    let t := [' ', 'a', '\n', '\n', 'b', '\n']
    dedent s = some t ∧ IsLeast (indents (lines s)) 3 ∧
      (∃ rows, List.Forall₂ (fun line row => Kept 3 line row ∧ trimStart row = trimStart line)
        (lines s) rows ∧ rows.flatMap (· ++ ['\n']) = t) ∧
      ∃ t, dedent [' ', ' ', 'a', '\n', '\t', 'b'] = some t := by
  intro s t
  obtain ⟨-, hleast, hreturns, hrows, -⟩ := dedent_takes_blanks s
  obtain ⟨-, -, -, -, hwidth⟩ := dedent_takes_blanks [' ', ' ', 'a', '\n', '\t', 'b']
  obtain ⟨u, hu⟩ := hreturns.2 (by decide)
  obtain rfl : t = u := Option.some.inj (Eq.trans rfl hu)
  refine ⟨hu, hleast ⟨3, ['\u3000', 'b'], by decide, rfl, rfl⟩, hrows t hu, hwidth 1 ?_⟩
  show ∀ line ∈ [[' ', ' ', 'a'], ['\t', 'b']], _
  simp [isBlankLine, isBlank, Char.utf8Size]

/-- One byte of white space is the least, and on the second line it is a part of a character. -/
theorem dedent_cuts_character :
    let s := [' ', 'a', '\n', '\u3000', 'b']
    ['\u3000', 'b'] ∈ lines s ∧ isBlankLine ['\u3000', 'b'] = false ∧
      ¬String.Pos.Raw.IsValid (String.ofList ['\u3000', 'b']) ⟨sharedIndent (lines s)⟩ ∧
      dedent s = none := by
  decide

end Orchestration.Text
