import Orchestration.Proofs.Validation.Admission
import Orchestration.Proofs.Values.Places

/-!
Where validation finds mistakes. The walk through lists and maps goes on with the breadcrumb it was
given; the arguments of a call are walked through from an empty one, and what was before is put in
front of the mistake afterwards. Main statement: either way the breadcrumb of a mistake leads to the
call that it is about, and a walk from some place finds what a walk from nowhere does.
-/

namespace Orchestration

section

variable {α β : Type}

theorem located_located (p q : Breadcrumb) (r : Result α) :
    located p (located q r) = located (p ++ q) r := by
  cases r with
  | error e => exact congrArg Except.error (e.atPath_atPath p q)
  | ok a => rfl

theorem located_bind (p : Breadcrumb) (x : Result α) (f : α → Result β) :
    located p (x >>= f) = located p x >>= fun a => located p (f a) := by
  cases x <;> rfl

end

namespace Snippet

inductive CallAt : Snippet → Breadcrumb → Call → Snippet → Prop
  | here {c args} : CallAt (.call c args) [] c args
  | item {items i s way c args} :
    items[i]? = some s → CallAt s way c args → CallAt (.list items) (.index i :: way) c args
  | field {fields key s way c args} :
    (key, s) ∈ fields → CallAt s way c args → CallAt (.map fields) (.key key :: way) c args
  | argument {outer inner way c args} :
    CallAt inner way c args → CallAt (.call outer inner) (.key outer.name :: way) c args

variable {s args : Snippet} {c : Call} {way : Breadcrumb}

theorem CallAt.follow?_canonical (h : CallAt s way c args) :
    s.canonical.keysApart id = true → s.canonical.follow? way = some (call c args).canonical := by
  induction h with
  | here => exact fun _ => Value.follow?_nil _
  | @item items i s _ _ _ hs _ ih =>
    intro hkeys
    have hitem : (canonicalItems items)[i]? = some s.canonical := by
      rw [canonicalItems_eq, List.getElem?_map, hs]
      rfl
    exact (Value.follow?_item hitem).trans (ih (Value.keysApart_of_item hkeys hitem))
  | @field fields key s _ _ _ hs _ ih =>
    intro hkeys
    have hfield : (key, s.canonical) ∈ canonicalFields fields := by
      rw [canonicalFields_eq]
      exact List.mem_map_of_mem hs
    have hkey := Value.keysApart_of_field (Value.keysApart_map.1 hkeys).2 hfield
    exact (Value.follow?_of_mem hkeys hfield).trans (ih hkey)
  | @argument outer inner _ _ _ _ ih =>
    intro hkeys
    have hargs : inner.canonical.keysApart id = true :=
      Value.keysApart_of_field (Value.keysApart_map.1 hkeys).2 (List.mem_singleton_self _)
    exact (Value.follow?_single _ _ _).trans (ih hargs)

end Snippet

namespace Stack

variable {stack : Stack} {c : Call} {args : Snippet} {e : Error}

def Faults (stack : Stack) (c : Call) (args : Snippet) (cause : Cause) : Prop :=
  checkOffered c = .error (.bare cause) ∨ stack.checkCall c args = .error (.bare cause)

inductive Rejects (stack : Stack) (s : Snippet) (path : Breadcrumb) : Error → Prop
  | foreign {way c args} :
    s.CallAt way c args → c.stack ≠ stack.id →
    Rejects stack s path (.invariant (.foreignCall c.name c.stack.label stack.id.label))
  | fault {way c args cause} :
    s.CallAt way c args → stack.Faults c args cause →
    Rejects stack s path (.located (path ++ way ++ [.key c.name]) cause)

theorem isBare_checkOffered (c : Call) : Result.IsBare (checkOffered c) := by
  unfold checkOffered
  split
  · exact .bare _
  · exact .pure _

theorem isBare_checkAttribute (stack : Stack) (name field : String) :
    Result.IsBare (stack.checkAttribute name field) := by
  unfold checkAttribute
  split
  · exact .ite (.pure _) (.bare _)
  · exact .pure _

theorem isBare_checkCall (stack : Stack) (c : Call) (args : Snippet) :
    Result.IsBare (stack.checkCall c args) := by
  unfold checkCall
  split
  · unfold checkParameter
    split
    · exact .ite (.pure _) (.bare _)
    · exact .ite (.pure _) (.bare _)
    · exact .pure _
  · exact .ite (.pure _) (.fault _)
  · dsimp only
    split
    · refine .bind (.ite (.pure _) (.bare _)) fun _ => ?_
      split
      · exact isBare_checkAttribute stack _ _
      · exact .pure _
    · split
      · exact isBare_checkAttribute stack _ _
      · exact .pure _

namespace Rejects

variable {s s' : Snippet} {p q : Breadcrumb}

theorem atPath (h : stack.Rejects s p e) (q : Breadcrumb) :
    stack.Rejects s (q ++ p) (e.atPath q) := by
  cases h with
  | foreign hcall hne => exact .foreign hcall hne
  | fault hcall hfault =>
    rw [Error.atPath, ← List.append_assoc, ← List.append_assoc]
    exact .fault hcall hfault

theorem of_part {segment : Segment} (h : stack.Rejects s' (p ++ [segment]) e)
    (hpart : ∀ way c args, s'.CallAt way c args → s.CallAt (segment :: way) c args) :
    stack.Rejects s p e := by
  cases h with
  | foreign hcall hne => exact .foreign (hpart _ _ _ hcall) hne
  | fault hcall hfault =>
    rw [List.append_assoc p, List.singleton_append]
    exact .fault (hpart _ _ _ hcall) hfault

end Rejects

end Stack

namespace Snippet

open Stack (Rejects)

variable (stack : Stack)

mutual

theorem rejects_of_validate : ∀ (s : Snippet) (path : Breadcrumb) (e : Error),
    s.validate stack path = .error e → stack.Rejects s path e
  | .scalar _, _, _, h => nomatch h
  | .list items, path, e, h => by
    obtain ⟨i, s, hs, hrejects⟩ := exists_item_of_validateItems items path 0 e h
    rw [Nat.zero_add] at hrejects
    exact hrejects.of_part fun _ _ _ => .item hs
  | .map fields, path, e, h => by
    obtain ⟨key, s, hs, hrejects⟩ := exists_field_of_validateFields fields path e h
    exact hrejects.of_part fun _ _ _ => .field hs
  | .call c args, path, e, h => by
    have hhere {cause : Cause} (hfault : stack.Faults c args cause) :
        stack.Rejects (.call c args) path (.located (path.key c.name) cause) := by
      have hrejects : stack.Rejects (.call c args) path _ := .fault .here hfault
      rwa [List.append_nil] at hrejects
    obtain hown | ⟨_, -, h⟩ := Run.error_of_bind h
    · unfold Stack.checkOwn at hown
      split at hown
      · cases hown
      · next hne =>
        cases hown
        exact .foreign .here hne
    · obtain ⟨inner, hinner, rfl⟩ := Run.exists_of_located_error h
      obtain hoffered | ⟨_, -, hinner⟩ := Run.error_of_bind hinner
      · obtain ⟨cause, rfl⟩ := Stack.isBare_checkOffered c inner hoffered
        exact hhere (.inl hoffered)
      · obtain hargs | ⟨_, -, hcall⟩ := Run.error_of_bind hinner
        · have hrejects := (rejects_of_validate args [] inner hargs).atPath (path.key c.name)
          rw [List.append_nil] at hrejects
          exact hrejects.of_part fun _ _ _ => .argument
        · obtain ⟨cause, rfl⟩ := Stack.isBare_checkCall stack c args inner hcall
          exact hhere (.inr hcall)

theorem exists_item_of_validateItems :
    ∀ (items : List Snippet) (path : Breadcrumb) (first : Nat) (e : Error),
      validateItems stack items path first = .error e →
        ∃ i s, items[i]? = some s ∧ stack.Rejects s (path.index (first + i)) e
  | [], _, _, _, h => nomatch h
  | s :: rest, path, first, e, h => by
    obtain h | ⟨_, -, h⟩ := Run.error_of_bind h
    · exact ⟨0, s, rfl, rejects_of_validate s _ e h⟩
    · obtain ⟨i, s', hs, hrejects⟩ := exists_item_of_validateItems rest path (first + 1) e h
      exact ⟨i + 1, s', hs, by rwa [Nat.add_right_comm, Nat.add_assoc] at hrejects⟩

theorem exists_field_of_validateFields :
    ∀ (fields : List (String × Snippet)) (path : Breadcrumb) (e : Error),
      validateFields stack fields path = .error e →
        ∃ key s, (key, s) ∈ fields ∧ stack.Rejects s (path.key key) e
  | [], _, _, h => nomatch h
  | (key, s) :: rest, path, e, h => by
    obtain h | ⟨_, -, h⟩ := Run.error_of_bind h
    · exact ⟨key, s, List.mem_cons_self .., rejects_of_validate s _ e h⟩
    · obtain ⟨key', s', hs, hrejects⟩ := exists_field_of_validateFields rest path e h
      exact ⟨key', s', List.mem_cons_of_mem _ hs, hrejects⟩

end

mutual

theorem validate_eq_located : ∀ (s : Snippet) (path : Breadcrumb),
    s.validate stack path = located path (s.validate stack [])
  | .scalar _, _ => rfl
  | .list items, path => validateItems_eq_located items path 0
  | .map fields, path => validateFields_eq_located fields path
  | .call c args, path => by
    rw [validate, validate]
    unfold Stack.checkOwn
    split
    · exact (located_located path [.key c.name] _).symm
    · rfl

theorem validateItems_eq_located : ∀ (items : List Snippet) (path : Breadcrumb) (first : Nat),
    validateItems stack items path first = located path (validateItems stack items [] first)
  | [], _, _ => rfl
  | s :: rest, path, first => by
    rw [validateItems, validateItems, located_bind, validate_eq_located s (path.index first),
      validate_eq_located s (Breadcrumb.index [] first), located_located,
      validateItems_eq_located rest path]
    rfl

theorem validateFields_eq_located : ∀ (fields : List (String × Snippet)) (path : Breadcrumb),
    validateFields stack fields path = located path (validateFields stack fields [])
  | [], _ => rfl
  | (key, s) :: rest, path => by
    rw [validateFields, validateFields, located_bind, validate_eq_located s (path.key key),
      validate_eq_located s (Breadcrumb.key [] key), located_located,
      validateFields_eq_located rest path]
    rfl

end

/-- Validation says of every mistake where it is: behind the place of the snippet comes a breadcrumb
which, in what is written of the snippet, leads to the arguments under the name of the call whose
check failed. A call of another stack is no mistake and says no place. A walk from some place finds
what a walk from nowhere finds, with the place put in front, and places that are put in front one
after the other are put in front at once. -/
theorem validate_place (s : Snippet) (hkeys : s.canonical.keysApart id = true)
    (path : Breadcrumb) :
    (∀ e, s.validate stack path = .error e →
      (∃ way c args, s.CallAt way c args ∧ c.stack ≠ stack.id ∧
        e = .invariant (.foreignCall c.name c.stack.label stack.id.label)) ∨
      ∃ way c args cause, s.CallAt way c args ∧ stack.Faults c args cause ∧
        e = .located (path ++ (way ++ [.key c.name])) cause ∧
        s.canonical.follow? way = some (.map [(c.name, args.canonical)]) ∧
        s.canonical.follow? (way ++ [.key c.name]) = some args.canonical) ∧
    s.validate stack path = located path (s.validate stack []) ∧
    ∀ (e : Error) (p q : Breadcrumb), (e.atPath p).atPath q = e.atPath (q ++ p) := by
  refine ⟨fun e h => ?_, validate_eq_located stack s path, fun e p q => e.atPath_atPath q p⟩
  cases rejects_of_validate stack s path e h with
  | foreign hcall hne => exact .inl ⟨_, _, _, hcall, hne, rfl⟩
  | @fault way c args cause hcall hfault =>
    have hway := hcall.follow?_canonical hkeys
    refine .inr ⟨way, c, args, cause, hcall, hfault, by rw [List.append_assoc], hway, ?_⟩
    rw [Value.follow?_append, hway]
    exact Value.follow?_single _ _ []

theorem validate_place_of_unknown :
    let parameter : Breadcrumb :=
      [.key "names", .index 1, .key "list_join", .index 1, .index 0, .key "get_param"]
    ∃ t stack s, Template.ofValue (.map [("heat_template_version", .text "2016-10-14")]) = .ok t ∧
      Stack.make ⟨"s"⟩ "s" t [] (StaticResources.toResources []) = .ok stack ∧
      t.snippet .ordinary stack.id (.map [("names", .list [.text "a", .map [("list_join",
        .list [.text ",", .list [.map [("get_param", .text "unknown")]]])]])]) = .ok s ∧
      s.canonical.keysApart id = true ∧
      s.validate stack (.root "outputs") =
        .error (.located (.root "outputs" ++ parameter) (.unknownParameter "unknown")) ∧
      ∃ c args, s.CallAt parameter.dropLast c args ∧ parameter.getLast? = some (.key c.name) ∧
        s.canonical.follow? parameter = some args.canonical := by
  intro parameter
  have hplace {stack : Stack} {s : Snippet} {path place : Breadcrumb} {cause : Cause}
      (hkeys : s.canonical.keysApart id = true)
      (h : s.validate stack path = .error (.located (path ++ place) cause)) :
      s.validate stack path = .error (.located (path ++ place) cause) ∧
        ∃ c args, s.CallAt place.dropLast c args ∧ place.getLast? = some (.key c.name) ∧
          s.canonical.follow? place = some args.canonical := by
    obtain ⟨_, _, _, _, _, he⟩ | ⟨way, c, args, _, hcall, -, he, -, hfollow⟩ :=
      (validate_place stack s hkeys path).1 _ h
    · cases he
    · injection he with hpath
      obtain rfl := List.append_cancel_left hpath
      exact ⟨h, c, args, by rwa [List.dropLast_concat], List.getLast?_concat, hfollow⟩
  exact ⟨_, _, _, rfl, rfl, rfl, rfl, hplace rfl rfl⟩

end Snippet

end Orchestration
