import Orchestration.Proofs.Fields
import Orchestration.Proofs.References.Noninterference

/-!
The values of snippets, part by part. Carrying out an inquiry carries out its parts one after the
other, so the value of a list or a map is made of the values in it, and that of a snippet without
calls is the snippet itself, in every stack.
-/

namespace Orchestration

namespace Inquiry

variable {α β γ : Type} {find : String → Result Bool}

theorem id_map (q : Inquiry α) : id <$> q = q := by
  show q.bind _ = q
  induction q with
  | done r => cases r <;> rfl
  | ask name next ih => exact congrArg (ask name) (funext ih)

theorem bind_assoc (q : Inquiry α) (f : α → Inquiry β) (g : β → Inquiry γ) :
    q >>= f >>= g = q >>= fun a => f a >>= g := by
  show (q.bind f).bind g = q.bind _
  induction q with
  | done r => cases r <;> rfl
  | ask name next ih => exact congrArg (ask name) (funext ih)

instance : LawfulMonad Inquiry := .mk' _ id_map (fun _ _ => rfl) bind_assoc

theorem run_bind (q : Inquiry α) (f : α → Inquiry β) :
    (q >>= f).run find = (q.run find >>= fun a => (f a).run find) := by
  induction q with
  | done r => cases r <;> rfl
  | ask name next ih =>
    calc (find name >>= fun b => (next b >>= f).run find)
      _ = (find name >>= fun b => (next b).run find >>= fun a => (f a).run find) :=
        congrArg (find name >>= ·) (funext ih)
      _ = ((find name >>= fun b => (next b).run find) >>= fun a => (f a).run find) := by
        cases find name <;> rfl

theorem run_map (f : α → β) (q : Inquiry α) : (f <$> q).run find = f <$> q.run find :=
  (run_bind q _).trans (bind_pure_comp f _)

theorem run_mapM (f : α → Inquiry β) (as : List α) :
    (as.mapM f).run find = as.mapM fun a => (f a).run find := by
  induction as with
  | nil => rfl
  | cons a as ih => simp only [List.mapM_cons, run_bind, ih]; rfl

theorem run_foldlM (f : β → α → Inquiry β) (as : List α) (b : β) :
    (as.foldlM f b).run find = as.foldlM (fun b a => (f b a).run find) b := by
  induction as generalizing b with
  | nil => rfl
  | cons a as ih => simp only [List.foldlM_cons, run_bind, ih]

end Inquiry

namespace Evaluation

def operand (stack : Stack) (s : Snippet) : Operand := ⟨s, fun _ => resolve stack s⟩

theorem operands_eq (stack : Stack) (items : List Snippet) :
    operands stack items = items.map (operand stack) := by
  induction items with
  | nil => rfl
  | cons s rest ih => exact congrArg _ ih

theorem fieldOperands_eq (stack : Stack) (fields : Fields Snippet) :
    fieldOperands stack fields = fields.map fun e => (e.1, operand stack e.2) := by
  induction fields with
  | nil => rfl
  | cons e rest ih => exact congrArg _ ih

theorem resolve_list (stack : Stack) (items : List Snippet) :
    resolve stack (.list items) = .list <$> items.mapM (resolve stack) := by
  rw [resolve, operands_eq, List.mapM_map]
  rfl

theorem resolve_map (stack : Stack) (fields : Fields Snippet) :
    resolve stack (.map fields) =
      .map <$> fields.mapM fun e => (e.1, ·) <$> resolve stack e.2 := by
  rw [resolve, fieldOperands_eq, List.mapM_map]
  rfl

end Evaluation

namespace Stack

open Evaluation (Site arguments operand)

variable (stack : Stack)

theorem value_eq (s : Snippet) : stack.value s = (Evaluation.resolve stack s).run stack.truthOf :=
  resolve_run_memoAfter stack s []

theorem value_list (items : List Snippet) :
    stack.value (.list items) = .list <$> items.mapM stack.value := by
  rw [value_eq, Evaluation.resolve_list, Inquiry.run_map, Inquiry.run_mapM, funext stack.value_eq]

theorem value_map (fields : Fields Snippet) :
    stack.value (.map fields) =
      .map <$> fields.mapM fun e => (e.1, ·) <$> stack.value e.2 := by
  rw [value_eq, Evaluation.resolve_map, Inquiry.run_map, Inquiry.run_mapM]
  simp only [Inquiry.run_map, value_eq]

theorem operand_run (s : Snippet) :
    (operand stack s).value.run stack.truthOf = stack.value s := (stack.value_eq s).symm

theorem operand_bind_run {α : Type} {stack : Stack} {s : Snippet} {v : Value}
    (h : stack.value s = .ok v) (f : Value → Inquiry α) :
    ((operand stack s).value >>= f).run stack.truthOf = (f v).run stack.truthOf := by
  rw [Inquiry.run_bind, operand_run, Run.ok_bind h]

theorem arguments_items (items : List Snippet) :
    (arguments stack (.list items)).items = items.map (operand stack) :=
  Evaluation.operands_eq stack items

theorem arguments_field? (fields : Fields Snippet) (key : String) :
    (arguments stack (.map fields)).field? key = (fields.get? key).map (operand stack) := by
  rw [← Fields.get?_map, ← Evaluation.fieldOperands_eq]
  rfl

theorem value_call (c : Call) (args : Snippet) :
    stack.value (.call c args) = (do
      stack.checkOwn c
      (Site.value ⟨stack, c.name⟩ (arguments stack args) c.fn).run stack.truthOf) := by
  rw [value_eq, Evaluation.resolve, Inquiry.run_bind]
  rfl

theorem value_own {stack : Stack} {c : Call} (hown : c.stack = stack.id) (args : Snippet) :
    stack.value (.call c args) =
      (Site.value ⟨stack, c.name⟩ (arguments stack args) c.fn).run stack.truthOf := by
  have hcheck : stack.checkOwn c = .ok () := if_pos hown
  rw [value_call, Run.ok_bind hcheck]

mutual

theorem value_of_isPlain : ∀ s : Snippet, s.isPlain = true → stack.value s = .ok s.canonical
  | .scalar _, _ => by rw [value_eq, Evaluation.resolve, Snippet.canonical]; rfl
  | .list items, h => by
    rw [value_list, values_of_isPlainItems items h, Snippet.canonical]
    rfl
  | .map fields, h => by
    rw [value_map, values_of_isPlainFields fields h, Snippet.canonical]
    rfl

theorem values_of_isPlainItems : ∀ items : List Snippet, Snippet.isPlainItems items = true →
    items.mapM stack.value = .ok (Snippet.canonicalItems items)
  | [], _ => rfl
  | s :: rest, h => by
    obtain ⟨hs, hrest⟩ := Bool.and_eq_true_iff.1 h
    rw [List.mapM_cons, value_of_isPlain s hs, values_of_isPlainItems rest hrest]
    rfl

theorem values_of_isPlainFields : ∀ fields : List (String × Snippet),
    Snippet.isPlainFields fields = true →
      (fields.mapM fun e => (e.1, ·) <$> stack.value e.2) = .ok (Snippet.canonicalFields fields)
  | [], _ => rfl
  | (_, s) :: rest, h => by
    obtain ⟨hs, hrest⟩ := Bool.and_eq_true_iff.1 h
    rw [List.mapM_cons, value_of_isPlain s hs, values_of_isPlainFields rest hrest]
    rfl

end

end Stack

end Orchestration
