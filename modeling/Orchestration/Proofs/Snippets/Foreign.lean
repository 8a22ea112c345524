import Orchestration.Proofs.Evaluation
import Orchestration.Proofs.Snippets.Made
import Orchestration.Stack.Validation

namespace Orchestration

namespace Snippet

mutual

/-- The call that is met first. A call comes before those in its arguments. -/
def firstCall? : Snippet → Option Call
  | .scalar _ => none
  | .list items => firstCallOfItems? items
  | .map fields => firstCallOfFields? fields
  | .call c _ => some c

def firstCallOfItems? : List Snippet → Option Call
  | [] => none
  | s :: rest => s.firstCall?.or (firstCallOfItems? rest)

def firstCallOfFields? : List (String × Snippet) → Option Call
  | [] => none
  | (_, s) :: rest => s.firstCall?.or (firstCallOfFields? rest)

end

mutual

theorem firstCall?_isNone : ∀ s : Snippet, s.firstCall?.isNone = s.isPlain
  | .scalar _ => rfl
  | .list items => firstCallOfItems?_isNone items
  | .map fields => firstCallOfFields?_isNone fields
  | .call _ _ => rfl

theorem firstCallOfItems?_isNone :
    ∀ items : List Snippet, (firstCallOfItems? items).isNone = isPlainItems items
  | [] => rfl
  | s :: rest => by
    rw [firstCallOfItems?, isPlainItems, Option.isNone_or, firstCall?_isNone s,
      firstCallOfItems?_isNone rest]

theorem firstCallOfFields?_isNone :
    ∀ fields : List (String × Snippet), (firstCallOfFields? fields).isNone = isPlainFields fields
  | [] => rfl
  | (_, s) :: rest => by
    rw [firstCallOfFields?, isPlainFields, Option.isNone_or, firstCall?_isNone s,
      firstCallOfFields?_isNone rest]

end

section

variable {P : Call → Prop}

mutual

theorem Every.firstCall? : ∀ s : Snippet, Every (fun c _ => P c) s → ∀ c ∈ s.firstCall?, P c
  | .scalar _, _ => nofun
  | .list items, h => EveryItem.firstCall? items h
  | .map fields, h => EveryField.firstCall? fields h
  | .call _ _, h => by
    rintro _ ⟨⟩
    exact h.1

theorem EveryItem.firstCall? : ∀ items : List Snippet, EveryItem (fun c _ => P c) items →
    ∀ c ∈ firstCallOfItems? items, P c
  | [], _ => nofun
  | s :: rest, h => by
    intro c hc
    obtain hs | ⟨-, hrest⟩ := Option.or_eq_some_iff.1 hc
    · exact Every.firstCall? s h.1 c hs
    · exact EveryItem.firstCall? rest h.2 c hrest

theorem EveryField.firstCall? : ∀ fields : List (String × Snippet),
    EveryField (fun c _ => P c) fields → ∀ c ∈ firstCallOfFields? fields, P c
  | [], _ => nofun
  | (_, s) :: rest, h => by
    intro c hc
    obtain hs | ⟨-, hrest⟩ := Option.or_eq_some_iff.1 hc
    · exact Every.firstCall? s h.1 c hs
    · exact EveryField.firstCall? rest h.2 c hrest

end

end

end Snippet

namespace Stack

variable (stack : Stack)

def refused {α : Type} (first : Option Call) (a : α) : Result α :=
  match first with
  | none => .ok a
  | some c => .error (.invariant (.foreignCall c.name c.stack.label stack.id.label))

variable {stack}

theorem refused_or {α β γ : Type} (f : α → β → γ) (first second : Option Call) (a : α) (b : β) :
    stack.refused (first.or second) (f a b) =
      (stack.refused first a >>= fun a => stack.refused second b >>= fun b => .ok (f a b)) := by
  cases first with
  | some c => rfl
  | none => cases second <;> rfl

theorem refused_map {α β : Type} (f : α → β) (first : Option Call) (a : α) :
    stack.refused first (f a) = f <$> stack.refused first a := by
  cases first <;> rfl

theorem checkOwn_of_ne {c : Call} (h : c.stack ≠ stack.id) :
    stack.checkOwn c = stack.refused (some c) () := if_neg h

end Stack

namespace Inquiry

variable {α β : Type}

theorem done_bind (r : Result α) (f : α → Result β) :
    (done r >>= fun a => done (f a)) = done (r >>= f) := by
  cases r <;> rfl

theorem done_map (f : α → β) (r : Result α) : f <$> done r = done (f <$> r) :=
  (done_bind r fun a => .ok (f a)).trans (congrArg done (bind_pure_comp f r))

end Inquiry

namespace Evaluation

open Snippet (Every EveryItem EveryField)

variable {stack : Stack}

mutual

theorem resolve_of_foreign : ∀ s : Snippet, Every (fun c _ => c.stack ≠ stack.id) s →
    resolve stack s = .done (stack.refused s.firstCall? s.canonical)
  | .scalar _, _ => rfl
  | .list items, h => by
    rw [resolve_list, resolveItems_of_foreign items h, Inquiry.done_map, ← Stack.refused_map]
    rfl
  | .map fields, h => by
    rw [resolve_map, resolveFields_of_foreign fields h, Inquiry.done_map, ← Stack.refused_map]
    rfl
  | .call c args, h => by
    rw [resolve, Stack.checkOwn_of_ne h.1]
    rfl

theorem resolveItems_of_foreign : ∀ items : List Snippet,
    EveryItem (fun c _ => c.stack ≠ stack.id) items → items.mapM (resolve stack) =
      .done (stack.refused (Snippet.firstCallOfItems? items) (Snippet.canonicalItems items))
  | [], _ => rfl
  | s :: rest, h => by
    rw [List.mapM_cons, resolve_of_foreign s h.1, resolveItems_of_foreign rest h.2,
      Snippet.firstCallOfItems?, Snippet.canonicalItems, Stack.refused_or]
    simp only [← Inquiry.done_bind]
    rfl

theorem resolveFields_of_foreign : ∀ fields : List (String × Snippet),
    EveryField (fun c _ => c.stack ≠ stack.id) fields →
      (fields.mapM fun e => (e.1, ·) <$> resolve stack e.2) =
        .done (stack.refused (Snippet.firstCallOfFields? fields) (Snippet.canonicalFields fields))
  | [], _ => rfl
  | (k, s) :: rest, h => by
    rw [List.mapM_cons, resolve_of_foreign s h.1, resolveFields_of_foreign rest h.2,
      Inquiry.done_map, ← Stack.refused_map, Snippet.firstCallOfFields?, Snippet.canonicalFields,
      Stack.refused_or]
    simp only [← Inquiry.done_bind]
    rfl

end

end Evaluation

namespace Snippet

variable {stack : Stack}

mutual

theorem validate_of_foreign : ∀ (s : Snippet) (path : Breadcrumb),
    Every (fun c _ => c.stack ≠ stack.id) s →
      s.validate stack path = stack.refused s.firstCall? ()
  | .scalar _, _, _ => rfl
  | .list items, path, h => validateItems_of_foreign items path 0 h
  | .map fields, path, h => validateFields_of_foreign fields path h
  | .call c args, path, h => by
    rw [validate, Stack.checkOwn_of_ne h.1]
    rfl

theorem validateItems_of_foreign : ∀ (items : List Snippet) (path : Breadcrumb) (i : Nat),
    EveryItem (fun c _ => c.stack ≠ stack.id) items →
      validateItems stack items path i = stack.refused (firstCallOfItems? items) ()
  | [], _, _, _ => rfl
  | s :: rest, path, i, h => by
    rw [validateItems, validate_of_foreign s _ h.1, validateItems_of_foreign rest path _ h.2,
      firstCallOfItems?, Stack.refused_or fun _ _ => ()]
    exact congrArg _ (funext fun _ => (bind_pure _).symm)

theorem validateFields_of_foreign : ∀ (fields : List (String × Snippet)) (path : Breadcrumb),
    EveryField (fun c _ => c.stack ≠ stack.id) fields →
      validateFields stack fields path = stack.refused (firstCallOfFields? fields) ()
  | [], _, _ => rfl
  | (k, s) :: rest, path, h => by
    rw [validateFields, validate_of_foreign s _ h.1, validateFields_of_foreign rest path h.2,
      firstCallOfFields?, Stack.refused_or fun _ _ => ()]
    exact congrArg _ (funext fun _ => (bind_pure _).symm)

end

end Snippet

namespace Template

variable {t : Template} {id : StackId} {s : Snippet}

/-- What a parser in any state finds for a stack: what a value reads as, or what takes the place of
the name of a condition. -/
inductive ReadFor (t : Template) (id : StackId) (s : Snippet) : Prop
  | snippet {p : Parser} {v : Value} (h : t.snippet p id v = .ok s)
  | inlined {p : Parser} {name : String} (h : ((t.inlineCondition id name).run p).1 = .ok s)

/-- Where all calls that parsers make have a property, so have all in what one has read. -/
theorem ReadFor.every {P : Call → Snippet → Prop} (h : t.ReadFor id s)
    (hmakes : ∀ c, Makes t id c P) : s.Every P := by
  cases h with
  | snippet h => exact (snippet_eq_ok_iff.1 h).every (fun c _ => hmakes c) (Bool.false_le _)
  | inlined h =>
    have hreads := reads_of_inlineCondition (Prod.ext h rfl)
    exact hreads.every (fun c _ => hmakes c) (Bool.false_le _)

theorem ReadFor.every_stack (h : t.ReadFor id s) : s.Every fun c _ => c.stack = id :=
  h.every fun _ => ⟨fun _ _ => rfl, fun _ => rfl, fun _ => rfl⟩

/-- In another stack than the one that it was read for, a snippet is neither evaluated nor checked:
both stop at its first call, whatever is known there of conditions, and say nothing of a place.
Without calls it stands for itself. -/
theorem ReadFor.foreign (h : t.ReadFor id s) (stack : Stack) (hne : stack.id ≠ id) :
    (s.isPlain = false → ∃ c, s.firstCall? = some c ∧
      (∀ memo, (stack.resolve s).run memo =
        (.error (.invariant (.foreignCall c.name id.label stack.id.label)), memo)) ∧
      ∀ path, s.validate stack path =
        .error (.invariant (.foreignCall c.name id.label stack.id.label))) ∧
    (s.isPlain = true →
      (∀ memo, (stack.resolve s).run memo = (.ok s.canonical, memo)) ∧
      ∀ path, s.validate stack path = .ok ()) := by
  have hstack := h.every_stack
  have hforeign : s.Every fun c _ => c.stack ≠ stack.id :=
    hstack.imp fun c _ hc => hc ▸ hne.symm
  have hresolve : ∀ memo, (stack.resolve s).run memo =
      (stack.refused s.firstCall? s.canonical, memo) := by
    intro memo
    rw [Stack.resolve, Evaluation.resolve_of_foreign s hforeign]
    rfl
  have hvalidate := fun path => Snippet.validate_of_foreign s path hforeign
  have hplain := s.firstCall?_isNone
  constructor
  · intro hs
    cases hfirst : s.firstCall? with
    | none => simp [hfirst, hs] at hplain
    | some c =>
      have hc : c.stack = id := Snippet.Every.firstCall? s hstack c hfirst
      rw [hfirst] at hresolve hvalidate
      rw [← hc]
      exact ⟨c, rfl, hresolve, hvalidate⟩
  · intro hs
    cases hfirst : s.firstCall? with
    | none =>
      rw [hfirst] at hresolve hvalidate
      exact ⟨hresolve, hvalidate⟩
    | some c => simp [hfirst, hs] at hplain

/-- A negation with the definition of a condition in it belongs to the first stack of a template and
not to the second one, wherever it stands in a list of texts. -/
theorem ReadFor.foreign_of_negation :
    ∃ t stack s, Template.ofValue (.map [("heat_template_version", .text "2016-10-14"),
        ("conditions", .map [("base", .map [("equals", .list [.text "a", .text "b"])])])]) = .ok t ∧
      Stack.make ⟨"second"⟩ "s" t [] (StaticResources.toResources []) = .ok stack ∧
      t.ReadFor ⟨"first"⟩ s ∧ stack.id ≠ ⟨"first"⟩ ∧ s.isPlain = false ∧
      s.canonical = .map [("names", .list [.text "x",
        .map [("not", .map [("equals", .list [.text "a", .text "b"])])]])] ∧
      (∀ memo, (stack.resolve s).run memo =
        (.error (.invariant (.foreignCall "not" "first" "second")), memo)) ∧
      ∀ path, s.validate stack path = .error (.invariant (.foreignCall "not" "first" "second")) := by
  let negation : Value := .map [("names", .list [.text "x", .map [("not", .text "base")]])]
  have hforeign {stack : Stack} {s : Snippet}
      (h : stack.template.snippet .ordinary ⟨"first"⟩ negation = .ok s) (hid : stack.id = ⟨"second"⟩)
      (hs : s.isPlain = false) (hfirst : ∀ c ∈ s.firstCall?, c.name = "not") :
      (∀ memo, (stack.resolve s).run memo =
        (.error (.invariant (.foreignCall "not" "first" "second")), memo)) ∧
      ∀ path, s.validate stack path = .error (.invariant (.foreignCall "not" "first" "second")) := by
    obtain ⟨c, hcall, herror⟩ := (ReadFor.foreign (.snippet h) stack (by rw [hid]; decide)).1 hs
    rwa [hfirst c hcall, hid] at herror
  refine ⟨_, _, _, rfl, rfl, .snippet (p := .ordinary) (v := negation) rfl, by decide, rfl, rfl, ?_⟩
  exact hforeign rfl rfl rfl (by rintro _ ⟨⟩; rfl)

end Template

end Orchestration
