import Orchestration.Proofs.Evaluation

namespace Orchestration

namespace Collection

variable {input keys values before after rest given m : Fields Value} {key kind : String}
  {e : String × Value}

def newName (keys : Fields Value) (key : String) : String :=
  ((keys.get? key).bind Value.text?).getD key

def IsTaken (input keys : Fields Value) (key : String) : Prop :=
  newName keys key ≠ key ∧ newName keys key ∈ input.keys

instance : Decidable (IsTaken input keys key) := inferInstanceAs (Decidable (_ ∧ _))

/-- Some key would get the name of another one, or two keys would get one name. -/
def NamesClash (input keys : Fields Value) : Prop :=
  (∃ key ∈ input.keys, IsTaken input keys key) ∨ ¬(input.keys.map (newName keys)).Nodup

instance : Decidable (NamesClash input keys) := inferInstanceAs (Decidable (_ ∨ _))

/-- What an entry becomes. A text with an entry of its own is replaced, all else is kept. -/
structure Becomes (keys values : Fields Value) (entry entry' : String × Value) : Prop where
  key : entry'.1 = newName keys entry.1
  replaced : ∀ s v, entry.2 = .text s → values.get? s = some v → entry'.2 = v
  kept : (∀ s, entry.2 = .text s → values.get? s = none) → entry'.2 = entry.2

def NamedByText (keys : Fields Value) (key : String) : Prop :=
  ∀ v, keys.get? key = some v → ∃ name, v = .text name

theorem renamed_eq (h : NamedByText keys key) : renamed input keys key =
    if IsTaken input keys key then fault (.renamedToInput (newName keys key))
    else .ok (newName keys key) := by
  unfold renamed
  cases hkey : keys.get? key with
  | none =>
    have hname : newName keys key = key := by rw [newName, hkey]; rfl
    rw [if_neg fun htaken => htaken.1 hname, hname]
    rfl
  | some v =>
    obtain ⟨name, rfl⟩ := h v hkey
    have hname : newName keys key = name := by rw [newName, hkey]; rfl
    refine if_congr ?_ (by rw [hname]) (by rw [hname]; rfl)
    rw [IsTaken, hname, Bool.and_eq_true, decide_eq_true_eq, Fields.contains_iff]

def renamedEntry (keys values : Fields Value) (e : String × Value) : String × Value :=
  (newName keys e.1, replaced values e.2)

theorem becomes_renamedEntry (keys values : Fields Value) (e : String × Value) :
    Becomes keys values e (renamedEntry keys values e) := by
  obtain ⟨key, v⟩ := e
  refine ⟨rfl, ?_, fun hkept => ?_⟩
  · rintro s w rfl hw
    show (values.get? s).getD _ = w
    rw [hw]
    rfl
  · cases v with
    | scalar scalar =>
      cases scalar with
      | text s =>
        show (values.get? s).getD _ = _
        rw [hkept s rfl]
        rfl
      | _ => rfl
    | _ => rfl

def renameOne (input keys values before : Fields Value) (e : String × Value) :
    Result (Fields Value) := do
  let name ← renamed input keys e.1
  if before.contains name then fault (.renamedTwice name)
  return before.insert name (replaced values e.2)

theorem renameOne_eq_ok_iff (h : NamedByText keys e.1) :
    renameOne input keys values before e = .ok after ↔
      ¬IsTaken input keys e.1 ∧ newName keys e.1 ∉ before.keys ∧
        after = before ++ [renamedEntry keys values e] := by
  rw [renameOne, renamed_eq h]
  by_cases htaken : IsTaken input keys e.1
  · rw [if_pos htaken]
    exact ⟨nofun, fun h => absurd htaken h.1⟩
  rw [if_neg htaken, Run.ok_bind rfl]
  by_cases hmem : newName keys e.1 ∈ before.keys
  · rw [if_pos ((Fields.contains_iff _ _).2 hmem)]
    exact ⟨nofun, fun h => absurd hmem h.2.1⟩
  · rw [if_neg (mt (Fields.contains_iff _ _).1 hmem), Fields.insert_of_notMem hmem]
    constructor
    · intro h
      cases h
      exact ⟨htaken, hmem, rfl⟩
    · rintro ⟨-, -, rfl⟩
      rfl

theorem foldlM_renameOne_eq_ok_iff (h : ∀ e ∈ rest, NamedByText keys e.1) :
    rest.foldlM (renameOne input keys values) before = .ok after ↔
      (∀ e ∈ rest, ¬IsTaken input keys e.1) ∧
        rest.Pairwise (newName keys ·.1 ≠ newName keys ·.1) ∧
        (∀ e ∈ rest, newName keys e.1 ∉ before.keys) ∧
        after = before ++ rest.map (renamedEntry keys values) := by
  induction rest generalizing before with
  | nil =>
    rw [List.map_nil, List.append_nil]
    constructor
    · intro h
      cases h
      exact ⟨nofun, .nil, nofun, rfl⟩
    · rintro ⟨-, -, -, rfl⟩
      rfl
  | cons e rest ih =>
    obtain ⟨he, hrest⟩ := List.forall_mem_cons.1 h
    have hbefore : Fields.keys (before ++ [renamedEntry keys values e]) =
        before.keys ++ [newName keys e.1] := List.map_append
    rw [List.foldlM_cons, List.pairwise_cons, List.forall_mem_cons, List.forall_mem_cons,
      List.map_cons]
    constructor
    · intro h
      obtain ⟨mid, hmid, h⟩ := Run.exists_of_bind_ok h
      obtain ⟨hfree, hnew, rfl⟩ := (renameOne_eq_ok_iff he).1 hmid
      obtain ⟨hfrees, hdiffer, hnews, rfl⟩ := (ih hrest).1 h
      simp only [hbefore, List.mem_append, List.mem_singleton, not_or] at hnews
      exact ⟨⟨hfree, hfrees⟩, ⟨fun e' he' heq => (hnews e' he').2 heq.symm, hdiffer⟩,
        ⟨hnew, fun e' he' => (hnews e' he').1⟩, List.append_assoc ..⟩
    · rintro ⟨⟨hfree, hfrees⟩, ⟨hother, hdiffer⟩, ⟨hnew, hnews⟩, rfl⟩
      rw [Run.ok_bind ((renameOne_eq_ok_iff he).2 ⟨hfree, hnew, rfl⟩)]
      refine (ih hrest).2 ⟨hfrees, hdiffer, fun e' he' => ?_, ?_⟩
      · simp only [hbefore, List.mem_append, List.mem_singleton, not_or]
        exact ⟨hnews e' he', fun heq => hother e' he' heq.symm⟩
      · rw [List.append_assoc, List.singleton_append]

theorem rename_eq_ok_iff (h : ∀ key ∈ input.keys, NamedByText keys key) :
    rename input keys values = .ok after ↔
      ¬NamesClash input keys ∧ after = input.map (renamedEntry keys values) := by
  have hkeys (p : String → Prop) : (∀ key ∈ input.keys, p key) ↔ ∀ e ∈ input, p e.1 :=
    List.forall_mem_map
  have hfold : input.foldlM (renameOne input keys values) [] = .ok after ↔ _ :=
    foldlM_renameOne_eq_ok_iff ((hkeys _).1 h)
  have hclash : ¬NamesClash input keys ↔ (∀ e ∈ input, ¬IsTaken input keys e.1) ∧
      input.Pairwise (newName keys ·.1 ≠ newName keys ·.1) := by
    simp only [NamesClash, not_or, not_exists, not_and, not_not, hkeys]
    refine and_congr_right fun _ => ?_
    rw [List.Nodup, List.pairwise_map, Fields.keys, List.pairwise_map]
  rw [hclash, and_assoc]
  refine hfold.trans ?_
  simp [Fields.keys]

/-- What is given under a name, where null and nothing stand for the empty map. -/
def Gives (given : Fields Value) (kind : String) (m : Fields Value) : Prop :=
  given.get? kind = some (.map m) ∨
    m = [] ∧ (given.get? kind = none ∨ given.get? kind = some .null)

theorem replacements_eq (function : String) (h : Gives given kind m) :
    replacements function kind given = .ok m := by
  unfold replacements
  obtain h | ⟨rfl, h | h⟩ := h <;> rw [h] <;> rfl

end Collection

namespace Stack

open Evaluation (Site operand arguments)

variable {stack : Stack} {c : Call} {args : Snippet} {input keys values : Fields Value}

structure RenamesKeys (stack : Stack) (c : Call) (args : Snippet)
    (input keys values : Fields Value) : Prop where
  own : c.stack = stack.id
  isRename : c.fn = .rename
  args : ∃ (s s' : Snippet) (given : Fields Value), args = .list [s, s'] ∧
    stack.value s = .ok (.map input) ∧ stack.value s' = .ok (.map given) ∧
    (∀ key ∈ given.keys, key = "keys" ∨ key = "values") ∧
    Collection.Gives given "keys" keys ∧ Collection.Gives given "values" values

theorem value_rename (h : stack.RenamesKeys c args input keys values) :
    stack.value (.call c args) = .map <$> Collection.rename input keys values := by
  obtain ⟨hown, hfn, s, s', given, rfl, hinput, hgiven, hnames, hkeys, hvalues⟩ := h
  rw [value_own hown, hfn, Site.value, Site.rename, arguments_items]
  simp only [List.map_cons, List.map_nil]
  rw [operand_bind_run hinput]
  dsimp only
  rw [operand_bind_run hgiven]
  dsimp only
  rw [if_pos (by simpa using hnames), Collection.replacements_eq _ hkeys,
    Collection.replacements_eq _ hvalues]
  exact Inquiry.run_map _ _

/-- Renaming fails exactly where names clash. Otherwise there is one entry for each entry that was
there, in the same order, under its new name and with its value or what replaces it. -/
theorem renaming_keeps_entries (h : stack.RenamesKeys c args input keys values)
    (htexts : ∀ key ∈ input.keys, ∀ v, keys.get? key = some v → ∃ name, v = .text name) :
    ((∃ e, stack.value (.call c args) = .error e) ↔ Collection.NamesClash input keys) ∧
      (¬Collection.NamesClash input keys → ∃ output,
        stack.value (.call c args) = .ok (.map output) ∧
          List.Forall₂ (Collection.Becomes keys values) input output) := by
  have hrename (output : Fields Value) : Collection.rename input keys values = .ok output ↔ _ :=
    Collection.rename_eq_ok_iff htexts
  rw [value_rename h]
  have hkept (hclash : ¬Collection.NamesClash input keys) :=
    (hrename _).2 ⟨hclash, rfl⟩
  refine ⟨⟨?_, ?_⟩, fun hclash => ⟨_, by rw [hkept hclash]; rfl, ?_⟩⟩
  · rintro ⟨e, he⟩
    by_contra hclash
    rw [hkept hclash] at he
    cases he
  · intro hclash
    cases hresult : Collection.rename input keys values with
    | error e => exact ⟨e, rfl⟩
    | ok output => exact absurd hclash ((hrename output).1 hresult).1
  · exact List.forall₂_map_right_iff.2
      (List.forall₂_same.2 fun e _ => Collection.becomes_renamedEntry keys values e)

theorem renaming_keeps_entries_of_two :
    let input : Fields Value := [("k1", .text "v1"), ("k2", .text "v2")]
    ∃ t stack c args c' args',
      Template.ofValue (.map [("heat_template_version", .text "2017-09-01")]) = .ok t ∧
      make ⟨"s"⟩ "s" t [] (StaticResources.toResources []) = .ok stack ∧
      t.snippet .ordinary stack.id (.map [("map_replace", .list [.map input,
        .map [("keys", .map [("k1", .text "K1")]), ("values", .map [("v2", .integer 7)])]])]) =
          .ok (.call c args) ∧
      t.snippet .ordinary stack.id (.map [("map_replace", .list [.map input,
        .map [("keys", .map [("k1", .text "k2")])]])]) = .ok (.call c' args') ∧
      stack.RenamesKeys c args input [("k1", .text "K1")] [("v2", .integer 7)] ∧
      stack.RenamesKeys c' args' input [("k1", .text "k2")] [] ∧
      stack.value (.call c args) = .ok (.map [("K1", .text "v1"), ("k2", .integer 7)]) ∧
      ∃ e, stack.value (.call c' args') = .error e := by
  intro input
  have hnames {keys : Fields Value} {name : String} (hkeys : keys = [("k1", .text name)]) :
      ∀ key ∈ input.keys, ∀ v, keys.get? key = some v → ∃ name, v = .text name := by
    subst hkeys
    refine List.forall_mem_cons.2 ⟨?_, List.forall_mem_singleton.2 nofun⟩
    rintro _ ⟨⟩
    exact ⟨name, rfl⟩
  have hrenamed {stack : Stack} {c : Call} {args : Snippet}
      (h : stack.RenamesKeys c args input [("k1", .text "K1")] [("v2", .integer 7)]) :
      stack.value (.call c args) = .ok (.map [("K1", .text "v1"), ("k2", .integer 7)]) := by
    obtain ⟨output, hvalue, houtput⟩ := (renaming_keeps_entries h (hnames rfl)).2 (by decide)
    obtain ⟨e, _, he, hrest, rfl⟩ := List.forall₂_cons_left_iff.1 houtput
    obtain ⟨e', _, he', hnone, rfl⟩ := List.forall₂_cons_left_iff.1 hrest
    obtain rfl := List.forall₂_nil_left_iff.1 hnone
    obtain rfl : e = ("K1", .text "v1") := Prod.ext he.key (he.kept (by rintro _ ⟨⟩; rfl))
    obtain rfl : e' = ("k2", .integer 7) := Prod.ext he'.key (he'.replaced "v2" _ rfl rfl)
    exact hvalue
  have hclash {stack : Stack} {c : Call} {args : Snippet}
      (h : stack.RenamesKeys c args input [("k1", .text "k2")] []) :
      ∃ e, stack.value (.call c args) = .error e :=
    (renaming_keeps_entries h (hnames rfl)).1.2 (by decide)
  refine ⟨_, _, _, _, _, _, rfl, rfl, rfl, rfl, ?renames, ?clashes, hrenamed ?renames,
    hclash ?clashes⟩
  · exact ⟨rfl, rfl, _, _, _, rfl, value_of_isPlain _ _ rfl, value_of_isPlain _ _ rfl, by decide,
      .inl rfl, .inl rfl⟩
  · exact ⟨rfl, rfl, _, _, _, rfl, value_of_isPlain _ _ rfl, value_of_isPlain _ _ rfl, by decide,
      .inl rfl, .inr ⟨rfl, .inl rfl⟩⟩

end Stack

end Orchestration
