import Orchestration.Proofs.Snippets.Foreign
import Orchestration.Proofs.Validation.Checks

namespace Orchestration

/-- The name that the arguments of a parameter are written with: a text, or the first of a list. -/
def Snippet.writtenName? : Snippet → Option String
  | .text name | .list (.text name :: _) => some name
  | _ => none

namespace Stack

structure Admits (stack : Stack) (c : Call) (args : Snippet) : Prop where
  own : c.stack = stack.id
  offered : ∀ version reason, c.fn ≠ .unavailable version reason
  parameter : c.fn = .parameter →
    ∀ name ∈ args.writtenName?, stack.parameters.isDeclared name = true
  resource : c.fn = .resource → ∃ name, args = .text name ∧ stack.template.hasResource name = true
  attributeOf : c.fn = .attributeOf →
    ∃ name field rest, args = .list (.text name :: field :: rest) ∧
      stack.template.hasResource name = true ∧
      ∀ written ∈ field.text?, ∀ r ∈ stack.resources.get? name, r.declares written = true
  file : c.fn = .file → ∃ path, args = .text path ∧ (stack.template.file? path).isSome = true

variable {stack : Stack} {c : Call} {args : Snippet} {name : String}

theorem checkOwn_eq_ok_iff : stack.checkOwn c = .ok () ↔ c.stack = stack.id := by
  unfold checkOwn
  split
  · next h => exact iff_of_true rfl h
  · next h => exact iff_of_false nofun h

theorem checkOffered_eq_ok_iff :
    checkOffered c = .ok () ↔ ∀ version reason, c.fn ≠ .unavailable version reason := by
  unfold checkOffered
  split
  · next h => exact iff_of_false nofun fun hfn => hfn _ _ h
  · next h => exact iff_of_true rfl h

theorem checkParameter_eq_ok_iff : stack.checkParameter args = .ok () ↔
    ∀ name ∈ args.writtenName?, stack.parameters.isDeclared name = true := by
  have hname (name : String) : (if stack.parameters.isDeclared name then pure () else
      .error (.bare (.unknownParameter name)) : Result Unit) = .ok () ↔
      ∀ other ∈ some name, stack.parameters.isDeclared other = true := by
    split
    · next h => exact iff_of_true rfl (by simpa using h)
    · next h => exact iff_of_false (by simp) (by simpa using h)
  unfold checkParameter
  split
  · exact hname _
  · exact hname _
  · next htext hlist =>
    have hnone : args.writtenName? = none := by
      unfold Snippet.writtenName?
      split
      · exact absurd rfl (htext _)
      · exact absurd rfl (hlist _ _)
      · rfl
    rw [hnone]
    exact iff_of_true rfl (by simp)

theorem checkResource_eq_ok_iff :
    stack.checkResource c name = .ok () ↔ stack.template.hasResource name = true :=
  ⟨checkResource_eq_ok, fun h => if_pos h⟩

theorem checkAttribute_eq_ok_iff {field : String} : stack.checkAttribute name field = .ok () ↔
    ∀ r ∈ stack.resources.get? name, r.declares field = true := by
  unfold checkAttribute
  split
  · next r hr =>
    rw [hr]
    split
    · next h => exact iff_of_true rfl (by rintro _ ⟨⟩; exact h)
    · next h => exact iff_of_false nofun fun hall => h (hall r rfl)
  · next hr => exact iff_of_true rfl (by rw [hr]; exact nofun)

theorem checkFile_eq_ok_iff {path : String} :
    stack.checkFile c path = .ok () ↔ (stack.template.file? path).isSome = true := by
  unfold checkFile
  split
  · next h => exact iff_of_true rfl h
  · next h => exact iff_of_false nofun h

theorem bind_eq_ok_iff {x y : Result Unit} :
    (do x; y : Result Unit) = .ok () ↔ x = .ok () ∧ y = .ok () := by
  cases x with
  | error e => exact ⟨nofun, nofun⟩
  | ok u => exact ⟨fun h => ⟨rfl, h⟩, fun h => h.2⟩

structure Shaped (c : Call) (args : Snippet) : Prop where
  resource : c.fn = .resource → ∃ name, args = .text name
  attributeOf : c.fn = .attributeOf → ∃ name field rest, args = .list (.text name :: field :: rest)
  file : c.fn = .file → ∃ path, args = .text path

theorem checkCall_parameter_eq_ok_iff (hfn : c.fn = .parameter) :
    stack.checkCall c args = .ok () ↔
      ∀ name ∈ args.writtenName?, stack.parameters.isDeclared name = true := by
  unfold checkCall
  rw [hfn]
  exact checkParameter_eq_ok_iff

theorem checkCall_resource_eq_ok_iff (hfn : c.fn = .resource) :
    stack.checkCall c (.text name) = .ok () ↔ stack.template.hasResource name = true := by
  unfold checkCall
  rw [hfn]
  exact bind_eq_ok_iff.trans ((and_iff_left rfl).trans checkResource_eq_ok_iff)

theorem checkCall_file_eq_ok_iff {path : String} (hfn : c.fn = .file) :
    stack.checkCall c (.text path) = .ok () ↔ (stack.template.file? path).isSome = true := by
  unfold checkCall
  rw [hfn]
  exact checkFile_eq_ok_iff

theorem checkCall_attributeOf_eq_ok_iff {field : Snippet} {rest : List Snippet}
    (hfn : c.fn = .attributeOf) :
    stack.checkCall c (.list (.text name :: field :: rest)) = .ok () ↔
      stack.template.hasResource name = true ∧
        ∀ written ∈ field.text?, ∀ r ∈ stack.resources.get? name, r.declares written = true := by
  have hcheck : stack.checkCall c (.list (.text name :: field :: rest)) = (do
      stack.checkResource c name
      field.text?.elim (pure ()) (stack.checkAttribute name)) := by
    unfold checkCall
    rw [hfn]
    cases field with
    | scalar s => cases s <;> rfl
    | _ => rfl
  rw [hcheck, bind_eq_ok_iff, checkResource_eq_ok_iff]
  refine and_congr Iff.rfl ?_
  cases field.text? with
  | none => exact iff_of_true rfl (by simp)
  | some written =>
    simp only [Option.elim_some, checkAttribute_eq_ok_iff, Option.mem_some_iff, forall_eq']

theorem passes_iff_admits (hshape : Shaped c args) : stack.Passes c args ↔ stack.Admits c args := by
  constructor
  · rintro ⟨hown, hoffered, hcall⟩
    refine ⟨checkOwn_eq_ok_iff.1 hown, checkOffered_eq_ok_iff.1 hoffered, fun hfn => ?_,
      fun hfn => ?_, fun hfn => ?_, fun hfn => ?_⟩
    · exact (checkCall_parameter_eq_ok_iff hfn).1 hcall
    · obtain ⟨name, rfl⟩ := hshape.resource hfn
      exact ⟨name, rfl, (checkCall_resource_eq_ok_iff hfn).1 hcall⟩
    · obtain ⟨name, field, rest, rfl⟩ := hshape.attributeOf hfn
      exact ⟨name, field, rest, rfl, (checkCall_attributeOf_eq_ok_iff hfn).1 hcall⟩
    · obtain ⟨path, rfl⟩ := hshape.file hfn
      exact ⟨path, rfl, (checkCall_file_eq_ok_iff hfn).1 hcall⟩
  · intro h
    refine ⟨checkOwn_eq_ok_iff.2 h.own, checkOffered_eq_ok_iff.2 h.offered, ?_⟩
    cases hfn : c.fn with
    | parameter => exact (checkCall_parameter_eq_ok_iff hfn).2 (h.parameter hfn)
    | resource =>
      obtain ⟨name, rfl, hname⟩ := h.resource hfn
      exact (checkCall_resource_eq_ok_iff hfn).2 hname
    | attributeOf =>
      obtain ⟨name, field, rest, rfl, hname⟩ := h.attributeOf hfn
      exact (checkCall_attributeOf_eq_ok_iff hfn).2 hname
    | file =>
      obtain ⟨path, rfl, hpath⟩ := h.file hfn
      exact (checkCall_file_eq_ok_iff hfn).2 hpath
    | _ =>
      unfold checkCall
      rw [hfn]
      rfl

end Stack

namespace Form

variable {site : Site} {form : Form} {args args' : Snippet}

theorem Builds.attributeOf (h : form.Builds site args .attributeOf args') :
    ∃ name field rest, args' = .list (.text name :: field :: rest) := by
  cases h with
  | @plain form _ _ hp _ hargs =>
    cases form with
    | attributeOf => exact checkAttribute_eq_ok_iff.1 hargs
    | _ => cases hp
  | dotted => exact ⟨_, _, _, rfl⟩
  | pair => exact ⟨_, _, _, rfl⟩

theorem Builds.file (h : form.Builds site args .file args') : ∃ path, args' = .text path := by
  cases h with
  | @plain form _ _ hp _ hargs =>
    cases form with
    | file =>
      cases args with
      | scalar s =>
        cases s with
        | text path => exact ⟨path, rfl⟩
        | _ => cases hargs
      | _ => cases hargs
    | _ => cases hp

end Form

namespace Snippet

variable (stack : Stack)

mutual

theorem validate_of_every_passes : ∀ (s : Snippet) (path : Breadcrumb),
    Every stack.Passes s → s.validate stack path = .ok ()
  | .scalar _, _, _ => rfl
  | .list items, path, h => validateItems_of_everyItem_passes items path 0 h
  | .map fields, path, h => validateFields_of_everyField_passes fields path h
  | .call c args, path, ⟨⟨hown, hoffered, hcall⟩, hargs⟩ => by
    have hargs := validate_of_every_passes args [] hargs
    refine (Run.ok_bind hown).trans (Run.located_eq_ok_iff.2 ?_)
    exact (Run.ok_bind hoffered).trans ((Run.ok_bind hargs).trans hcall)

theorem validateItems_of_everyItem_passes :
    ∀ (items : List Snippet) (path : Breadcrumb) (i : Nat),
      EveryItem stack.Passes items → validateItems stack items path i = .ok ()
  | [], _, _, _ => rfl
  | s :: rest, path, i, h =>
    (Run.ok_bind (validate_of_every_passes s _ h.1)).trans
      (validateItems_of_everyItem_passes rest path (i + 1) h.2)

theorem validateFields_of_everyField_passes :
    ∀ (fields : List (String × Snippet)) (path : Breadcrumb),
      EveryField stack.Passes fields → validateFields stack fields path = .ok ()
  | [], _, _ => rfl
  | (_, s) :: rest, path, h =>
    (Run.ok_bind (validate_of_every_passes s _ h.1)).trans
      (validateFields_of_everyField_passes rest path h.2)

end

end Snippet

namespace Template.ReadFor

variable {t : Template} {id : StackId} {s : Snippet}

theorem every_shaped (h : t.ReadFor id s) : s.Every Stack.Shaped := by
  refine h.every fun c => ⟨fun _ hbuilds => ?_, fun _ => ?_, fun _ => ?_⟩
  · refine ⟨?_, ?_, ?_⟩
    · rintro ⟨⟩
      exact hbuilds.resource
    · rintro ⟨⟩
      exact hbuilds.attributeOf
    · rintro ⟨⟩
      exact hbuilds.file
  · exact ⟨nofun, nofun, nofun⟩
  · exact ⟨nofun, nofun, nofun⟩

/-- Validation finds no mistake in what a parser has read exactly if the stack admits every call in
it, those in the arguments of other calls too. -/
theorem validate_eq_ok_iff (h : t.ReadFor id s) (stack : Stack) (path : Breadcrumb) :
    s.validate stack path = .ok () ↔ s.Every stack.Admits := by
  have hshaped := h.every_shaped
  constructor
  · intro hvalid
    exact Snippet.Every.imp₂ (fun _ _ hshape hpasses => (Stack.passes_iff_admits hshape).1 hpasses)
      s hshaped (s.every_passes_of_validate stack path hvalid)
  · intro hadmits
    refine s.validate_of_every_passes stack path (Snippet.Every.imp₂ ?_ s hshaped hadmits)
    exact fun _ _ hshape hadmitted => (Stack.passes_iff_admits hshape).2 hadmitted

/-- The name of an attribute may come from a parameter. The calls in an address are admitted if the
parameter is declared, and one of them is not otherwise. -/
theorem validate_eq_ok_iff_of_address :
    let address (parameter : String) : Value := .map [("list_join", .list [.text ":",
      .list [.map [("get_attr", .list [.text "server", .map [("get_param", .text parameter)]])],
        .map [("get_resource", .text "server")]]])]
    ∃ t stack s s', Template.ofValue (.map [("heat_template_version", .text "2016-10-14"),
        ("parameters", .map [("field", .map [("type", .text "string")])]),
        ("resources", .map [("server", .map [("type", .text "T")])])]) = .ok t ∧
      Stack.make ⟨"s"⟩ "s" t [] (StaticResources.toResources []) = .ok stack ∧
      (t.snippet .ordinary stack.id (address "field") = .ok s ∧
        s.validate stack [] = .ok () ∧ s.Every stack.Admits) ∧
      t.snippet .ordinary stack.id (address "unit") = .ok s' ∧
        s'.validate stack [] ≠ .ok () ∧ ¬s'.Every stack.Admits := by
  intro address
  have hvalid {t : Template} {stack : Stack} {v : Value} {s : Snippet}
      (h : t.snippet .ordinary stack.id v = .ok s) (hs : s.validate stack [] = .ok ()) :
      t.snippet .ordinary stack.id v = .ok s ∧ s.validate stack [] = .ok () ∧
        s.Every stack.Admits :=
    ⟨h, hs, (validate_eq_ok_iff (.snippet h) stack []).1 hs⟩
  have hinvalid {t : Template} {stack : Stack} {v : Value} {s : Snippet}
      (h : t.snippet .ordinary stack.id v = .ok s) (hs : s.validate stack [] ≠ .ok ()) :
      t.snippet .ordinary stack.id v = .ok s ∧ s.validate stack [] ≠ .ok () ∧
        ¬s.Every stack.Admits :=
    ⟨h, hs, mt (validate_eq_ok_iff (.snippet h) stack []).2 hs⟩
  exact ⟨_, _, _, _, rfl, rfl, hvalid rfl rfl, hinvalid rfl nofun⟩

end Template.ReadFor

end Orchestration
