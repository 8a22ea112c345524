import Mathlib.Algebra.BigOperators.Group.List.Basic
import Mathlib.Data.List.Forall2
import Mathlib.Data.List.GetD
import Orchestration.Proofs.Evaluation

/-!
Loops and the combinations of their values. Rows of indexes, one for each loop, say which values are
combined; their order is that of numbers whose digits are the indexes. Main statement: the copies of
a template are those for all rows, or for the rows of equal indexes, in that order.
-/

namespace Orchestration

namespace Loop

/-- All rows of indexes below the given lengths, the first index varying slowest. -/
def rows : List Nat → List (List Nat)
  | [] => [[]]
  | n :: ns => (List.range n).flatMap fun i => (rows ns).map (i :: ·)

/-- The number whose digits are the indexes, each to the base of its length. -/
def position : (lengths indexes : List Nat) → Nat
  | _ :: ns, i :: is => i * ns.prod + position ns is
  | _, _ => 0

section

variable {α β : Type} {n : Nat} {ns is : List Nat}

theorem length_flatMap_of_const {l : List α} {f : α → List β} (h : ∀ a ∈ l, (f a).length = n) :
    (l.flatMap f).length = l.length * n := by
  induction l with
  | nil => simp
  | cons a l ih =>
    obtain ⟨ha, hl⟩ := List.forall_mem_cons.1 h
    rw [List.flatMap_cons, List.length_append, ha, ih hl, List.length_cons, Nat.succ_mul,
      Nat.add_comm]

/-- Where blocks of one length are put together, a place is a block and a place in it. -/
theorem getElem?_flatMap_of_const {l : List α} {f : α → List β} (h : ∀ a ∈ l, (f a).length = n)
    {i j : Nat} {a : α} (ha : l[i]? = some a) (hj : j < n) :
    (l.flatMap f)[i * n + j]? = (f a)[j]? := by
  induction l generalizing i with
  | nil => simp at ha
  | cons b l ih =>
    obtain ⟨hb, hl⟩ := List.forall_mem_cons.1 h
    rw [List.flatMap_cons]
    cases i with
    | zero =>
      cases ha
      rw [Nat.zero_mul, Nat.zero_add, List.getElem?_append_left (hb ▸ hj)]
    | succ i =>
      have hle : (f b).length ≤ (i + 1) * n + j := by
        rw [hb, Nat.succ_mul]
        omega
      have hsub : (i + 1) * n + j - (f b).length = i * n + j := by
        rw [hb, Nat.succ_mul]
        omega
      rw [List.getElem?_append_right hle, hsub]
      exact ih hl ha

theorem length_rows (ns : List Nat) : (rows ns).length = ns.prod := by
  induction ns with
  | nil => rfl
  | cons n ns ih =>
    rw [rows, length_flatMap_of_const fun i _ => (List.length_map _).trans ih, List.length_range,
      List.prod_cons]

theorem position_lt (h : List.Forall₂ (· < ·) is ns) : position ns is < ns.prod := by
  induction h with
  | nil => simp [position]
  | @cons i n is ns hi _ ih =>
    rw [position, List.prod_cons]
    calc i * ns.prod + position ns is
      _ < i * ns.prod + ns.prod := Nat.add_lt_add_left ih _
      _ = (i + 1) * ns.prod := (Nat.succ_mul ..).symm
      _ ≤ n * ns.prod := Nat.mul_le_mul_right _ hi

theorem getElem?_rows (h : List.Forall₂ (· < ·) is ns) : (rows ns)[position ns is]? = some is := by
  induction h with
  | nil => rfl
  | @cons i n is ns hi h ih =>
    rw [rows, position, getElem?_flatMap_of_const
      (fun i _ => (List.length_map _).trans (length_rows ns)) (List.getElem?_range hi)
      (position_lt h), List.getElem?_map, ih]
    rfl

theorem mem_rows (h : is ∈ rows ns) : List.Forall₂ (· < ·) is ns := by
  induction ns generalizing is with
  | nil =>
    cases List.mem_singleton.1 h
    exact .nil
  | cons n ns ih =>
    obtain ⟨i, hi, h⟩ := List.mem_flatMap.1 h
    obtain ⟨is, his, rfl⟩ := List.mem_map.1 h
    exact .cons (List.mem_range.1 hi) (ih his)

theorem map_range_getD (xs : List α) (d : α) : (List.range xs.length).map (xs.getD · d) = xs := by
  refine List.ext_getElem (by simp) fun i _ hi => ?_
  rw [List.getElem_map, List.getElem_range, List.getD_eq_getElem _ _ hi]

theorem flatMap_range_ite (f : Nat → List α) (i n : Nat) :
    ((List.range n).flatMap fun j => if j = i then f j else []) = if i < n then f i else [] := by
  induction n with
  | zero => rfl
  | succ n ih =>
    rw [List.range_succ, List.flatMap_append, ih, List.flatMap_singleton]
    grind

theorem filter_rows_all (i : Nat) (ns : List Nat) :
    (rows ns).filter (·.all (· = i)) =
      if ∀ n ∈ ns, i < n then [List.replicate ns.length i] else [] := by
  induction ns with
  | nil => rfl
  | cons n ns ih =>
    have hblock (j : Nat) : ((rows ns).map (j :: ·)).filter (·.all (· = i)) =
        if j = i then ((rows ns).filter (·.all (· = i))).map (j :: ·) else [] := by
      by_cases hj : j = i <;> simp [List.filter_map, Function.comp_def, hj]
    rw [rows, List.filter_flatMap, funext hblock, flatMap_range_ite, ih]
    simp only [List.forall_mem_cons]
    by_cases hi : i < n
    · by_cases hns : ∀ m ∈ ns, i < m
      · rw [if_pos hi, if_pos hns, if_pos ⟨hi, hns⟩]
        rfl
      · rw [if_pos hi, if_neg hns, if_neg fun h => hns h.2]
        rfl
    · rw [if_neg hi, if_neg fun h => hi h.1]

theorem forall_eq_headD (hns : ns ≠ []) :
    (∀ m ∈ ns, m = ns.headD 0) ↔ ∀ m ∈ ns, ∀ m' ∈ ns, m = m' := by
  constructor
  · intro h m hm m' hm'
    exact (h m hm).trans (h m' hm').symm
  · intro h m hm
    cases ns with
    | nil => exact absurd rfl hns
    | cons n ns => exact h m hm n List.mem_cons_self

theorem filter_rows_pairwise (hns : ns ≠ []) (h : ∀ m ∈ ns, m = n) :
    (rows ns).filter (·.Pairwise (· = ·)) =
      (List.range n).map fun i => List.replicate ns.length i := by
  cases ns with
  | nil => exact absurd rfl hns
  | cons m ns =>
    obtain ⟨rfl, hns⟩ := List.forall_mem_cons.1 h
    have hblock (i : Nat) : ((rows ns).map (i :: ·)).filter (·.Pairwise (· = ·)) =
        ((rows ns).filter (·.all (· = i))).map (i :: ·) := by
      rw [List.filter_map]
      refine congrArg _ (List.filter_congr fun is _ => ?_)
      rw [Function.comp_apply, Bool.eq_iff_iff, decide_eq_true_eq, List.pairwise_cons,
        List.all_eq_true]
      simp only [decide_eq_true_eq]
      constructor
      · rintro ⟨hi, -⟩ j hj
        exact (hi j hj).symm
      · intro hi
        exact ⟨fun j hj => (hi j hj).symm,
          List.pairwise_of_forall_mem_list fun j hj k hk => (hi j hj).trans (hi k hk).symm⟩
    rw [rows, List.filter_flatMap, funext hblock, List.map_eq_flatMap]
    refine List.flatMap_congr fun i hi => ?_
    have hall : ∀ k ∈ ns, i < k := fun k hk => hns k hk ▸ List.mem_range.1 hi
    rw [filter_rows_all, if_pos hall]
    rfl

end

abbrev Ranges := Fields (List Scalar)

namespace Ranges

variable (ranges : Ranges)

def toFields : Fields Value := ranges.map fun e => (e.1, .list (e.2.map .scalar))

def lengths : List Nat := ranges.map fun e => e.2.length

def choice (indexes : List Nat) : List Text.Placeholder :=
  List.zipWith (fun e i => ⟨e.1.toList, (e.2.getD i .null).plain.toList⟩) ranges indexes

def loops : List Loop := ranges.map fun e => ⟨e.1, e.2.map Scalar.plain⟩

variable {ranges}

theorem ofEntry_list (function placeholder : String) (scalars : List Scalar) :
    ofEntry function placeholder (.list (scalars.map .scalar)) =
      .ok ⟨placeholder, scalars.map Scalar.plain⟩ := by
  refine Run.ok_bind (Run.mapM_eq_ok_iff.2 ?_)
  rw [List.forall₂_map_left_iff, List.forall₂_map_right_iff, List.forall₂_same]
  exact fun _ _ => rfl

theorem mapM_ofEntry (function : String) :
    (ranges.toFields.mapM fun (placeholder, values) => ofEntry function placeholder values) =
      .ok ranges.loops := by
  rw [Run.mapM_eq_ok_iff, toFields, loops, List.forall₂_map_left_iff, List.forall₂_map_right_iff,
    List.forall₂_same]
  exact fun e _ => ofEntry_list function e.1 e.2

theorem combinations_loops (ranges : Ranges) :
    combinations ranges.loops = (rows ranges.lengths).map ranges.choice := by
  induction ranges with
  | nil => rfl
  | cons e ranges ih =>
    have htexts : e.2.map Scalar.plain =
        (List.range e.2.length).map fun i => (e.2.getD i .null).plain := by
      conv_lhs => rw [← map_range_getD e.2 .null, List.map_map]
      rfl
    calc combinations (loops (e :: ranges))
      _ = (e.2.map Scalar.plain).flatMap fun text =>
            (combinations (loops ranges)).map (⟨e.1.toList, text.toList⟩ :: ·) := rfl
      _ = (List.range e.2.length).flatMap fun i =>
            ((rows (lengths ranges)).map (choice ranges)).map
              (⟨e.1.toList, (e.2.getD i .null).plain.toList⟩ :: ·) := by
        rw [htexts, List.flatMap_map, ih]
      _ = (rows (lengths (e :: ranges))).map (choice (e :: ranges)) := by
        simp only [lengths, List.map_cons, rows, List.map_flatMap, List.map_map]
        rfl

theorem map_choice_loops (ranges : Ranges) (i : Nat) :
    (ranges.loops.map fun l => l.choice (l.texts.getD i "")) =
      ranges.choice (List.replicate ranges.lengths.length i) := by
  induction ranges with
  | nil => rfl
  | cons e ranges ih =>
    have hhead : (e.2.map Scalar.plain).getD i "" = (e.2.getD i .null).plain :=
      List.getD_map e.2 .null Scalar.plain
    exact congrArg₂ (fun text rest => Text.Placeholder.mk e.1.toList text.toList :: rest) hhead ih

theorem zipped?_loops (ranges : Ranges) : zipped? ranges.loops =
    if ∀ n ∈ ranges.lengths, n = ranges.lengths.headD 0 then
      some ((List.range (ranges.lengths.headD 0)).map fun i =>
        ranges.choice (List.replicate ranges.lengths.length i))
    else none := by
  have hhead : ((ranges.loops.head?.map (·.texts.length)).getD 0) = ranges.lengths.headD 0 := by
    cases ranges with
    | nil => rfl
    | cons e ranges => exact List.length_map _
  rw [zipped?, hhead]
  simp only [map_choice_loops]
  refine if_congr ?_ rfl rfl
  rw [List.all_eq_true, loops, List.forall_mem_map]
  simp only [lengths, List.forall_mem_map, List.length_map, decide_eq_true_eq]

theorem copies_toFields (function : String) (ranges : Ranges) (template : Value)
    (permutations : Bool) : copies function ranges.toFields template permutations =
      if permutations then
        .ok (.list ((rows ranges.lengths).map fun is => copy (ranges.choice is) template))
      else if ∀ n ∈ ranges.lengths, n = ranges.lengths.headD 0 then
        .ok (.list ((List.range (ranges.lengths.headD 0)).map fun i =>
          copy (ranges.choice (List.replicate ranges.lengths.length i)) template))
      else fault (.call function .loopLengths) := by
  rw [copies, Run.ok_bind (mapM_ofEntry function)]
  cases permutations with
  | true =>
    rw [if_pos rfl, if_pos rfl, combinations_loops]
    show Except.ok _ = _
    rw [List.map_map]
    rfl
  | false =>
    rw [if_neg Bool.false_ne_true, if_neg Bool.false_ne_true, zipped?_loops]
    by_cases h : ∀ n ∈ ranges.lengths, n = ranges.lengths.headD 0
    · rw [if_pos h, if_pos h]
      show Except.ok _ = _
      rw [List.map_map]
      rfl
    · rw [if_neg h, if_neg h]
      rfl

end Ranges

end Loop

namespace Stack

open Evaluation (Site operand arguments)

variable {stack : Stack} {c : Call} {fields : Fields Snippet} {loops : Fields Value}
  {template : Value} {permutations : Bool}

structure Repeats (stack : Stack) (c : Call) (fields : Fields Snippet) (loops : Fields Value)
    (template : Value) (permutations : Bool) : Prop where
  own : c.stack = stack.id
  isLoop : ∃ zips, c.fn = .loop zips
  loops : ∃ s, fields.get? "for_each" = some s ∧ stack.value s = .ok (.map loops)
  template : ∃ s, fields.get? "template" = some s ∧ stack.value s = .ok template
  permutations : (fields.get? "permutations" = none ∧ permutations = true) ∨
    ∃ s, fields.get? "permutations" = some s ∧ stack.value s = .ok (.bool permutations)

theorem value_loop (h : stack.Repeats c fields loops template permutations) :
    stack.value (.call c (.map fields)) = Loop.copies c.name loops template permutations := by
  obtain ⟨hown, ⟨zips, hfn⟩, ⟨s, hs, hloops⟩, ⟨s', hs', htemplate⟩, hpermutations⟩ := h
  rw [value_own hown, hfn, Site.value, Site.loop]
  simp only [arguments_field?, hs, hs', Option.map_some]
  rw [operand_bind_run hloops]
  dsimp only
  rw [operand_bind_run htemplate]
  obtain ⟨hnone, rfl⟩ | ⟨s'', hs'', hbool⟩ := hpermutations
  · rw [hnone]
    rfl
  · rw [hs'', Option.map_some]
    dsimp only
    rw [operand_bind_run hbool]
    rfl

/-- A template is copied for every row of indexes at the row's position, or for the rows of equal
indexes in their order, which takes loops of one length. -/
theorem loop_enumerates {ranges : Loop.Ranges}
    (h : stack.Repeats c fields ranges.toFields template permutations) :
    ∃ rows : List (List Nat), rows.length = ranges.lengths.prod ∧
      (∀ is, List.Forall₂ (· < ·) is ranges.lengths →
        rows[Loop.position ranges.lengths is]? = some is) ∧
      (permutations = true → stack.value (.call c (.map fields)) =
        .ok (.list (rows.map fun is => Loop.copy (ranges.choice is) template))) ∧
      (permutations = false → ranges ≠ [] →
        (stack.value (.call c (.map fields)) = fault (.call c.name .loopLengths) ↔
          ∃ n ∈ ranges.lengths, ∃ n' ∈ ranges.lengths, n ≠ n') ∧
        ((∀ n ∈ ranges.lengths, ∀ n' ∈ ranges.lengths, n = n') →
          stack.value (.call c (.map fields)) =
            .ok (.list ((rows.filter (·.Pairwise (· = ·))).map fun is =>
              Loop.copy (ranges.choice is) template)))) := by
  rw [value_loop h, Loop.Ranges.copies_toFields]
  refine ⟨Loop.rows ranges.lengths, Loop.length_rows _, fun is => Loop.getElem?_rows, ?_, ?_⟩
  · rintro rfl
    rw [if_pos rfl]
  · rintro rfl hne
    have hlengths : ranges.lengths ≠ [] := by simpa [Loop.Ranges.lengths] using hne
    have hhead := Loop.forall_eq_headD hlengths
    rw [if_neg Bool.false_ne_true]
    by_cases hsame : ∀ n ∈ ranges.lengths, ∀ n' ∈ ranges.lengths, n = n'
    · rw [if_pos (hhead.2 hsame), Loop.filter_rows_pairwise hlengths (hhead.2 hsame), List.map_map]
      refine ⟨⟨nofun, ?_⟩, fun _ => rfl⟩
      rintro ⟨n, hn, n', hn', hdiffer⟩
      exact absurd (hsame n hn n' hn') hdiffer
    · rw [if_neg (mt hhead.1 hsame)]
      exact ⟨⟨fun _ => by simpa using hsame, fun _ => rfl⟩, fun h => absurd h hsame⟩

theorem loop_enumerates_pairs :
    let ranges : Loop.Ranges := [("%a%", [.integer 1, .integer 2]), ("%b%", [.text "x", .text "y"])]
    let forEach := ("for_each", Value.map ranges.toFields)
    let template := ("template", Value.text "%a%%b%")
    ∃ t stack c fields c' fields',
      Template.ofValue (.map [("heat_template_version", .text "2016-10-14")]) = .ok t ∧
      make ⟨"s"⟩ "s" t [] (StaticResources.toResources []) = .ok stack ∧
      t.snippet .ordinary stack.id (.map [("repeat", .map [forEach, template])]) =
        .ok (.call c (.map fields)) ∧
      t.snippet .ordinary stack.id (.map [("repeat", .map [forEach, template,
        ("permutations", .bool false)])]) = .ok (.call c' (.map fields')) ∧
      stack.Repeats c fields ranges.toFields (.text "%a%%b%") true ∧
      stack.Repeats c' fields' ranges.toFields (.text "%a%%b%") false ∧
      stack.value (.call c (.map fields)) = .ok (.texts ["1x", "1y", "2x", "2y"]) ∧
      stack.value (.call c' (.map fields')) = .ok (.texts ["1x", "2y"]) := by
  intro ranges forEach template
  have hrows {rows : List (List Nat)} (hlength : rows.length = ranges.lengths.prod)
      (h : ∀ is, List.Forall₂ (· < ·) is ranges.lengths →
        rows[Loop.position ranges.lengths is]? = some is) :
      rows = [[0, 0], [0, 1], [1, 0], [1, 1]] := by
    refine List.ext_getElem? fun i => ?_
    match i with
    | 0 => exact h [0, 0] (by decide)
    | 1 => exact h [0, 1] (by decide)
    | 2 => exact h [1, 0] (by decide)
    | 3 => exact h [1, 1] (by decide)
    | i + 4 => exact List.getElem?_eq_none (hlength ▸ Nat.le_add_left 4 i)
  have hcombined {stack : Stack} {c : Call} {fields : Fields Snippet}
      (h : stack.Repeats c fields ranges.toFields (.text "%a%%b%") true) :
      stack.value (.call c (.map fields)) = .ok (.texts ["1x", "1y", "2x", "2y"]) := by
    obtain ⟨rows, hlength, hposition, hvalue, -⟩ := loop_enumerates h
    rw [hvalue rfl, hrows hlength hposition]
    rfl
  have hzipped {stack : Stack} {c : Call} {fields : Fields Snippet}
      (h : stack.Repeats c fields ranges.toFields (.text "%a%%b%") false) :
      stack.value (.call c (.map fields)) = .ok (.texts ["1x", "2y"]) := by
    obtain ⟨rows, hlength, hposition, -, hvalue⟩ := loop_enumerates h
    rw [(hvalue rfl (List.cons_ne_nil _ _)).2 (by decide), hrows hlength hposition]
    rfl
  refine ⟨_, _, _, _, _, _, rfl, rfl, rfl, rfl, ?combined, ?zipped, hcombined ?combined,
    hzipped ?zipped⟩
  · exact ⟨rfl, ⟨_, rfl⟩, ⟨_, rfl, value_of_isPlain _ _ rfl⟩, ⟨_, rfl, value_of_isPlain _ _ rfl⟩,
      .inl ⟨rfl, rfl⟩⟩
  · exact ⟨rfl, ⟨_, rfl⟩, ⟨_, rfl, value_of_isPlain _ _ rfl⟩, ⟨_, rfl, value_of_isPlain _ _ rfl⟩,
      .inr ⟨_, rfl, value_of_isPlain _ _ rfl⟩⟩

end Stack

end Orchestration
