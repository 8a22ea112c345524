import Orchestration.Proofs.Evaluation
import Orchestration.Proofs.Text.Numerals
import Orchestration.Proofs.Text.Pieces

namespace Orchestration

namespace Member

variable {m : Member} {s number : String} {members members' : List Member}
  {keyField valueField : String}

def spell (dotted : Bool) (number : String) (m : Member) : String :=
  (if dotted then "." else "") ++ "member." ++ number ++ "." ++ m.field ++ "=" ++ m.text

/-- The texts that are members: the number may have a plus sign or leading zeros, and the field ends
at the first equality sign. -/
def IsWritten (m : Member) (s : String) : Prop :=
  m.index < Nat.pow 2 64 ∧ '=' ∉ m.field.toList ∧
    ∃ dotted number, Text.DenotesUnsigned number.toList m.index ∧ s = m.spell dotted number

theorem isWritten_toString (hindex : m.index < Nat.pow 2 64) (hfield : '=' ∉ m.field.toList)
    (dotted : Bool) : m.IsWritten (m.spell dotted (toString m.index)) := by
  have hnumber : (toString m.index).toList = Nat.toDigits 10 m.index := Nat.toList_repr
  exact ⟨hindex, hfield, dotted, _, hnumber ▸ .bare (Text.denotes_toDigits m.index), rfl⟩

theorem toList_spell (dotted : Bool) (number : String) (m : Member) :
    (m.spell dotted number).toList =
      ((if dotted then ['.'] else []) ++ ("member.".toList ++
        (number.toList ++ '.' :: m.field.toList))) ++ '=' :: m.text.toList := by
  cases dotted <;> simp [spell]

theorem not_mem_of_denotes {number : List Char} {n : Nat} (h : Text.DenotesUnsigned number n) :
    '.' ∉ number ∧ '=' ∉ number := by
  have hdigits {digits : List Char} (h : Text.Denotes digits n) :
      '.' ∉ digits ∧ '=' ∉ digits :=
    ⟨fun hmem => absurd (h.digits _ hmem) (by decide),
      fun hmem => absurd (h.digits _ hmem) (by decide)⟩
  cases h with
  | bare h => exact hdigits h
  | plus h => simpa using hdigits h

theorem after?_dot_eq_some_iff {key rest : List Char} :
    Text.after? "member.".toList ((Text.after? ['.'] key).getD key) = some rest ↔
      ∃ dotted : Bool, key = (if dotted then ['.'] else []) ++ ("member.".toList ++ rest) := by
  rw [Text.after?_eq_some_iff]
  constructor
  · intro h
    cases hafter : Text.after? ['.'] key with
    | none =>
      rw [hafter] at h
      exact ⟨false, h⟩
    | some key' =>
      rw [hafter] at h
      exact ⟨true, (Text.after?_eq_some_iff.1 hafter).trans (congrArg ('.' :: ·) h)⟩
  · rintro ⟨_ | _, rfl⟩ <;> rfl

theorem ofText?_eq_some_iff : ofText? s = some m ↔ m.IsWritten s := by
  constructor
  · intro h
    obtain ⟨⟨key, text⟩, hsides, h⟩ := Option.bind_eq_some_iff.1 h
    obtain ⟨rest, hrest, h⟩ := Option.bind_eq_some_iff.1 h
    obtain ⟨⟨number, field⟩, hfield, h⟩ := Option.bind_eq_some_iff.1 h
    obtain ⟨index, hindex, hm⟩ := Option.bind_eq_some_iff.1 h
    obtain ⟨hs, hkey⟩ := Text.splitOnce?_eq_some_iff.1 hsides
    obtain ⟨rfl, -⟩ := Text.splitOnce?_eq_some_iff.1 hfield
    obtain ⟨hnumber, hlt⟩ := Text.unsigned?_eq_some_iff.1 hindex
    obtain ⟨dotted, rfl⟩ := after?_dot_eq_some_iff.1 hrest
    cases hm
    refine ⟨hlt, fun hmem => hkey ?_, dotted, String.ofList number, ?_, ?_⟩
    · simp [String.toList_ofList] at hmem
      simp [hmem]
    · rwa [String.toList_ofList]
    · refine String.toList_inj.1 ?_
      rw [hs, toList_spell]
      simp
  · rintro ⟨hindex, hfield, dotted, number, hnumber, rfl⟩
    obtain ⟨hdot, heq⟩ := not_mem_of_denotes hnumber
    let key := (if dotted then ['.'] else []) ++
      ("member.".toList ++ (number.toList ++ '.' :: m.field.toList))
    have hkey : '=' ∉ key := by cases dotted <;> simp [key, heq, hfield]
    have hrest : Text.after? "member.".toList ((Text.after? ['.'] key).getD key) =
        some (number.toList ++ '.' :: m.field.toList) := after?_dot_eq_some_iff.2 ⟨dotted, rfl⟩
    rw [ofText?, toList_spell, Text.splitOnce?_append hkey]
    simp only [Option.bind_eq_bind, Option.bind_some, hrest, Text.splitOnce?_append hdot,
      Text.unsigned?_eq_some_iff.2 ⟨hnumber, hindex⟩, String.ofList_toList, Option.pure_def]

theorem filterMap_ofText? {texts : List String} (h : List.Forall₂ IsWritten members texts) :
    texts.filterMap ofText? = members := by
  induction h with
  | nil => rfl
  | cons hm _ ih => rw [List.filterMap_cons_some (ofText?_eq_some_iff.2 hm), ih]

def Distinct (members : List Member) : Prop :=
  members.Pairwise fun m m' => ¬(m.index = m'.index ∧ m.field = m'.field)

theorem Distinct.perm (h : Distinct members) (hperm : members.Perm members') : Distinct members' :=
  hperm.pairwise h fun hdiffer heq => hdiffer ⟨heq.1.symm, heq.2.symm⟩

theorem nodup_map_field (h : Distinct members) (i : Nat) :
    ((members.filter (·.index = i)).map (·.field)).Nodup := by
  refine List.pairwise_map.2 ((List.Pairwise.filter _ h).imp_of_mem fun {m m'} hm hm' hdiffer => ?_)
  have hm := of_decide_eq_true (List.mem_filter.1 hm).2
  have hm' := of_decide_eq_true (List.mem_filter.1 hm').2
  exact fun heq => hdiffer ⟨hm.trans hm'.symm, heq⟩

theorem fields_eq (h : Distinct members) (i : Nat) : fields members i =
    (members.filter (·.index = i)).map fun m => (m.field, m.text) := by
  refine (Fields.extend_of_nodup (m := []) ?_).trans (List.nil_append _)
  rw [List.nil_append, Fields.keys, List.map_map]
  exact nodup_map_field h i

theorem nodup_keys_fields (h : Distinct members) (i : Nat) : (fields members i).keys.Nodup := by
  rw [fields_eq h, Fields.keys, List.map_map]
  exact nodup_map_field h i

theorem get?_fields (h : Distinct members) (hm : m ∈ members) :
    (fields members m.index).get? m.field = some m.text := by
  refine Fields.get?_of_mem (nodup_keys_fields h _) ?_
  rw [fields_eq h]
  exact List.mem_map.2 ⟨m, List.mem_filter.2 ⟨hm, decide_eq_true rfl⟩, rfl⟩

theorem get?_fields_perm (h : Distinct members) (hperm : members.Perm members') (i : Nat)
    (field : String) : (fields members i).get? field = (fields members' i).get? field := by
  refine Fields.get?_of_perm ?_ (nodup_keys_fields h i) field
  rw [fields_eq h, fields_eq (h.perm hperm)]
  exact (hperm.filter _).map _

theorem eq_of_mem_iff {l l' : List Nat} (h : l.Pairwise (· < ·)) (h' : l'.Pairwise (· < ·))
    (hmem : ∀ a, a ∈ l ↔ a ∈ l') : l = l' :=
  List.Perm.eq_of_pairwise (fun _ _ _ _ hab hba => absurd hab (Nat.lt_asymm hba)) h h'
    ((List.perm_ext_iff_of_nodup (h.imp Nat.ne_of_lt) (h'.imp Nat.ne_of_lt)).2 hmem)

theorem pairwise_indexes (members : List Member) : (indexes members).Pairwise (· < ·) :=
  Sorting.pairwise_eraseReps (List.pairwise_mergeSort' (· ≤ ·) _)

theorem mem_indexes {i : Nat} : i ∈ indexes members ↔ ∃ m ∈ members, m.index = i := by
  rw [indexes, Sorting.mem_eraseReps, List.mem_mergeSort, List.mem_map]

theorem indexes_perm (hperm : members.Perm members') : indexes members = indexes members' :=
  eq_of_mem_iff (pairwise_indexes _) (pairwise_indexes _) fun i => by
    simp only [mem_indexes, hperm.mem_iff]

theorem toFields_perm (h : Distinct members) (hperm : members.Perm members') :
    toFields keyField valueField members = toFields keyField valueField members' := by
  unfold toFields
  simp only [indexes_perm hperm, get?_fields_perm h hperm]

structure Row where
  index : Nat
  key : String
  text : String

def ofRows (keyField valueField : String) (rows : List Row) : List Member :=
  rows.flatMap fun r => [⟨r.index, keyField, r.key⟩, ⟨r.index, valueField, r.text⟩]

section

variable {rows : List Row}

theorem mem_ofRows : m ∈ ofRows keyField valueField rows ↔
    ∃ r ∈ rows, m = ⟨r.index, keyField, r.key⟩ ∨ m = ⟨r.index, valueField, r.text⟩ := by
  simp [ofRows]

theorem distinct_ofRows (hfields : keyField ≠ valueField)
    (hindexes : rows.Pairwise (·.index < ·.index)) :
    Distinct (ofRows keyField valueField rows) := by
  refine List.pairwise_flatMap.2 ⟨fun r _ => ?_, hindexes.imp fun {r r'} hlt => ?_⟩
  · simpa using hfields
  · simp only [List.mem_cons, List.not_mem_nil, or_false, forall_eq_or_imp, forall_eq]
    omega

theorem toFields_ofRows (hfields : keyField ≠ valueField)
    (hindexes : rows.Pairwise (·.index < ·.index)) (hkeys : (rows.map (·.key)).Nodup) :
    toFields keyField valueField (ofRows keyField valueField rows) =
      rows.map fun r => (r.key, .text r.text) := by
  have hdistinct := distinct_ofRows hfields hindexes
  have hrows : indexes (ofRows keyField valueField rows) = rows.map (·.index) := by
    refine eq_of_mem_iff (pairwise_indexes _) (List.pairwise_map.2 hindexes) fun i => ?_
    rw [mem_indexes, List.mem_map]
    constructor
    · rintro ⟨m, hm, rfl⟩
      obtain ⟨r, hr, rfl | rfl⟩ := mem_ofRows.1 hm <;> exact ⟨r, hr, rfl⟩
    · rintro ⟨r, hr, rfl⟩
      exact ⟨⟨r.index, keyField, r.key⟩, mem_ofRows.2 ⟨r, hr, .inl rfl⟩, rfl⟩
  have hentry {r : Row} (hr : r ∈ rows) :
      (fields (ofRows keyField valueField rows) r.index).get? keyField = some r.key ∧
        (fields (ofRows keyField valueField rows) r.index).get? valueField = some r.text := by
    have hkey := get?_fields hdistinct (mem_ofRows.2 ⟨r, hr, .inl rfl⟩)
    have htext := get?_fields hdistinct (mem_ofRows.2 ⟨r, hr, .inr rfl⟩)
    exact ⟨hkey, htext⟩
  have hfound : ((indexes (ofRows keyField valueField rows)).filterMap fun i => do
      let key ← (fields (ofRows keyField valueField rows) i).get? keyField
      let text ← (fields (ofRows keyField valueField rows) i).get? valueField
      return (key, Value.text text)) = rows.map fun r => (r.key, .text r.text) := by
    rw [hrows, List.filterMap_map, ← List.filterMap_eq_map]
    refine List.filterMap_congr fun r hr => ?_
    obtain ⟨hkey, htext⟩ := hentry hr
    rw [Function.comp_apply, hkey, htext]
    rfl
  rw [toFields, hfound]
  refine (Fields.extend_of_nodup (m := []) ?_).trans (List.nil_append _)
  rwa [List.nil_append, Fields.keys, List.map_map]

/-- Some texts are the members of entries in any order, each with a dot in front or without. -/
def Lists (keyField valueField : String) (rows : List Row) (texts : List String) : Prop :=
  ∃ written, texts.Perm written ∧
    List.Forall₂ (fun m s => ∃ dotted, s = spell dotted (toString m.index) m)
      (ofRows keyField valueField rows) written

theorem Lists.perm {texts : List String} (h : Lists keyField valueField rows texts)
    (hkey : '=' ∉ keyField.toList) (hvalue : '=' ∉ valueField.toList)
    (hbound : ∀ r ∈ rows, r.index < Nat.pow 2 64) :
    (texts.filterMap ofText?).Perm (ofRows keyField valueField rows) := by
  obtain ⟨written, hperm, hwritten⟩ := h
  have hfields : ∀ m ∈ ofRows keyField valueField rows,
      m.index < Nat.pow 2 64 ∧ '=' ∉ m.field.toList := by
    intro m hm
    obtain ⟨r, hr, rfl | rfl⟩ := mem_ofRows.1 hm
    · exact ⟨hbound r hr, hkey⟩
    · exact ⟨hbound r hr, hvalue⟩
  have hmembers : List.Forall₂ IsWritten (ofRows keyField valueField rows) written := by
    refine (List.forall₂_and_left _ _ |>.2 ⟨hfields, hwritten⟩).imp ?_
    rintro m s ⟨⟨hindex, hfield⟩, dotted, rfl⟩
    exact isWritten_toString hindex hfield dotted
  exact filterMap_ofText? hmembers ▸ hperm.filterMap _

end

end Member

namespace Stack

open Evaluation (Site operand arguments)

variable {stack : Stack} {c : Call} {args : Snippet} {keyField valueField : String}
  {texts : List String}

structure ReadsMembers (stack : Stack) (c : Call) (args : Snippet) (keyField valueField : String)
    (texts : List String) : Prop where
  own : c.stack = stack.id
  isMemberList : c.fn = .memberList
  args : ∃ s, args = .list [.text keyField, .text valueField, s] ∧
    stack.value s = .ok (.texts texts)

theorem value_memberList (h : stack.ReadsMembers c args keyField valueField texts) :
    stack.value (.call c args) =
      .ok (.map (Member.toFields keyField valueField (texts.filterMap Member.ofText?))) := by
  obtain ⟨hown, hfn, s, rfl, htexts⟩ := h
  rw [value_own hown, hfn, Site.value, Site.memberList, arguments_items]
  have htext (field : String) : (operand stack (.text field)).written.text? = some field := rfl
  have hmembers : (texts.map Value.text).mapM Value.text? = some texts := by
    clear htexts
    induction texts with
    | nil => rfl
    | cons s texts ih => rw [List.map_cons, List.mapM_cons, ih]; rfl
  simp only [List.map_cons, List.map_nil, htext]
  rw [operand_bind_run htexts, Value.texts]
  simp only [hmembers]
  rfl

/-- The order of a member list does not count where no two members have the same number and field;
and whatever way the members of a map are listed, the map is read from them in the order of their
numbers. -/
theorem members_in_any_order (h : stack.ReadsMembers c args keyField valueField texts) :
    (texts.Pairwise (fun s s' => ∀ m m' : Member, m.IsWritten s → m'.IsWritten s' →
        ¬(m.index = m'.index ∧ m.field = m'.field)) →
      ∀ c' args' texts', stack.ReadsMembers c' args' keyField valueField texts' →
        texts.Perm texts' → ∃ fields, stack.value (.call c args) = .ok (.map fields) ∧
          stack.value (.call c' args') = .ok (.map fields)) ∧
      ∀ rows : List Member.Row, Member.Lists keyField valueField rows texts →
        keyField ≠ valueField → '=' ∉ keyField.toList → '=' ∉ valueField.toList →
        rows.Pairwise (·.index < ·.index) → (∀ r ∈ rows, r.index < Nat.pow 2 64) →
        (rows.map (·.key)).Nodup →
        stack.value (.call c args) = .ok (.map (rows.map fun r => (r.key, .text r.text))) := by
  rw [value_memberList h]
  refine ⟨fun hdiffer c' args' texts' h' hperm => ⟨_, rfl, ?_⟩, ?_⟩
  · have hdistinct : Member.Distinct (texts.filterMap Member.ofText?) := by
      refine List.pairwise_filterMap.2 (hdiffer.imp fun {s s'} hdiffer m hm m' hm' => ?_)
      exact hdiffer m m' (Member.ofText?_eq_some_iff.1 hm) (Member.ofText?_eq_some_iff.1 hm')
    rw [value_memberList h', Member.toFields_perm hdistinct (hperm.filterMap _)]
  · intro rows hlists hfields hkey hvalue hindexes hbound hkeys
    have hmembers := hlists.perm hkey hvalue hbound
    have hdistinct := (Member.distinct_ofRows hfields hindexes).perm hmembers.symm
    rw [Member.toFields_perm hdistinct hmembers, Member.toFields_ofRows hfields hindexes hkeys]

theorem members_in_any_order_of_two :
    let texts := ["member.10.Value=b=c", ".member.9.Name=k", "member.10.Name=l", "member.9.Value=a"]
    ∃ t stack c args c' args',
      Template.ofValue (.map [("AWSTemplateFormatVersion", .text "2010-09-09")]) = .ok t ∧
      make ⟨"s"⟩ "s" t [] (StaticResources.toResources []) = .ok stack ∧
      t.snippet .ordinary stack.id (.map [("Fn::MemberListToMap",
        .list [.text "Name", .text "Value", .texts texts])]) = .ok (.call c args) ∧
      t.snippet .ordinary stack.id (.map [("Fn::MemberListToMap",
        .list [.text "Name", .text "Value", .texts texts.reverse])]) = .ok (.call c' args') ∧
      stack.ReadsMembers c args "Name" "Value" texts ∧
      stack.ReadsMembers c' args' "Name" "Value" texts.reverse ∧
      stack.value (.call c args) = .ok (.map [("k", .text "a"), ("l", .text "b=c")]) ∧
      stack.value (.call c' args') = .ok (.map [("k", .text "a"), ("l", .text "b=c")]) := by
  intro texts
  have hvalues {stack : Stack} {c c' : Call} {args args' : Snippet}
      (h : stack.ReadsMembers c args "Name" "Value" texts)
      (h' : stack.ReadsMembers c' args' "Name" "Value" texts.reverse) :
      stack.value (.call c args) = .ok (.map [("k", .text "a"), ("l", .text "b=c")]) ∧
        stack.value (.call c' args') = .ok (.map [("k", .text "a"), ("l", .text "b=c")]) := by
    have hlists : Member.Lists "Name" "Value" [⟨9, "k", "a"⟩, ⟨10, "l", "b=c"⟩] texts :=
      ⟨[".member.9.Name=k", "member.9.Value=a", "member.10.Name=l", "member.10.Value=b=c"],
        by decide, .cons ⟨true, rfl⟩ (.cons ⟨false, rfl⟩ (.cons ⟨false, rfl⟩
          (.cons ⟨false, rfl⟩ .nil)))⟩
    have hread : texts.map Member.ofText? = [some ⟨10, "Value", "b=c"⟩, some ⟨9, "Name", "k"⟩,
        some ⟨10, "Name", "l"⟩, some ⟨9, "Value", "a"⟩] := rfl
    have hdiffer : texts.Pairwise fun s s' => ∀ m m' : Member, m.IsWritten s → m'.IsWritten s' →
        ¬(m.index = m'.index ∧ m.field = m'.field) := by
      have hpairs : (texts.map Member.ofText?).Pairwise fun o o' => ∀ m m' : Member,
          o = some m → o' = some m' → ¬(m.index = m'.index ∧ m.field = m'.field) := by
        rw [hread]
        simp
      simpa only [Member.ofText?_eq_some_iff] using List.pairwise_map.1 hpairs
    obtain ⟨hsame, hrows⟩ := members_in_any_order h
    have hvalue := hrows _ hlists (by decide) (by decide) (by decide) (by decide) (by decide)
      (by decide)
    obtain ⟨fields, hfields, hfields'⟩ := hsame hdiffer c' args' _ h' (List.reverse_perm _).symm
    exact ⟨hvalue, hfields'.trans (hfields.symm.trans hvalue)⟩
  refine ⟨_, _, _, _, _, _, rfl, rfl, rfl, rfl, ?reads, ?reads', hvalues ?reads ?reads'⟩
  · exact ⟨rfl, rfl, _, rfl, value_of_isPlain _ _ rfl⟩
  · exact ⟨rfl, rfl, _, rfl, value_of_isPlain _ _ rfl⟩

end Stack

end Orchestration
