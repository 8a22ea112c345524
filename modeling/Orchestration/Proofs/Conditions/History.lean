import Orchestration.Proofs.Conditions.Memo
import Orchestration.Stack.Validation

namespace Orchestration

inductive Request
  | truth (name : String)
  | enabled (condition : Option Snippet)
  | validation
  | value (s : Snippet)

inductive Answer
  | truth (b : Bool)
  | valid
  | value (v : Value)

namespace Stack

open Memo (Sound)
open Evaluation (Finds)

variable {α β : Type} (stack : Stack)

def answer : Request → Evaluation Answer
  | .truth name => .truth <$> stack.evaluate name
  | .enabled condition => .truth <$> stack.isEnabled condition
  | .validation => (fun _ => .valid) <$> stack.validateConditions
  | .value s => .value <$> stack.resolve s

/-- The answers to requests, given with one memo. -/
def answers (requests : List Request) : StateM Memo (List (Result Answer)) :=
  requests.mapM fun request => (stack.answer request).run

def firstAnswer (request : Request) : Result Answer := ((stack.answer request).run []).1

/-- An evaluation that comes to the same whatever is known. -/
def Determines (x : Evaluation α) (r : Result α) : Prop :=
  ∀ memo, Sound stack [] memo → ∃ after, Finds stack [] memo x r after

variable {stack}

theorem Determines.lift (r : Result α) : stack.Determines (liftM r) r :=
  fun memo hs => ⟨memo, rfl, hs, .refl memo⟩

theorem Determines.bind {x : Evaluation α} {r : Result α} {f : α → Evaluation β}
    {g : α → Result β} (hx : stack.Determines x r) (hf : ∀ a, stack.Determines (f a) (g a)) :
    stack.Determines (x >>= f) (r >>= g) := by
  intro memo hs
  obtain ⟨mid, hrun, hmid, hext⟩ := hx memo hs
  cases r with
  | error e => exact ⟨mid, Run.bind_error hrun, hmid, hext⟩
  | ok a =>
    obtain ⟨after, hrun', hafter, hext'⟩ := hf a mid hmid
    exact ⟨after, (Run.bind_ok hrun).trans hrun', hafter, hext'.trans hext⟩

theorem Determines.map (f : α → β) {x : Evaluation α} {r : Result α}
    (hx : stack.Determines x r) : stack.Determines (f <$> x) (f <$> r) := by
  rw [← bind_pure_comp, ← bind_pure_comp]
  exact hx.bind fun a => .lift (pure (f a))

theorem Determines.forM {f : α → Evaluation Unit} {g : α → Result Unit} {as : List α}
    (h : ∀ a, stack.Determines (f a) (g a)) : stack.Determines (as.forM f) (as.forM g) := by
  induction as with
  | nil => exact .lift (pure ())
  | cons a as ih => exact (h a).bind fun _ => ih

theorem evaluate_settles {memo : Memo} (name : String) (hs : Sound stack [] memo) :
    Evaluation.Settles stack [] memo (stack.evaluate name) name :=
  Evaluation.evaluate_settles .nil (List.nil_subset _) (Nat.le_refl _) hs

theorem determines_evaluate (name : String) :
    stack.Determines (stack.evaluate name) (stack.truthOf name) := by
  intro memo hs
  obtain ⟨after, h, -⟩ := evaluate_settles name hs
  exact ⟨after, h⟩

theorem determines_run (q : Inquiry α) :
    stack.Determines (q.run stack.evaluate) (q.run stack.truthOf) := by
  intro memo hs
  obtain ⟨after, h, -⟩ := Evaluation.run_finds (fun _ name hs => evaluate_settles name hs) q hs
  exact ⟨after, h⟩

variable (stack) in
def truthCheck (name : String) : Result Unit :=
  match stack.truthOf name with
  | .ok _ | .error (.bare (.parameterMissing _)) => .ok ()
  | .error e => .error (e.atPath ((Breadcrumb.root "conditions").key name))

theorem determines_checkTruth (name : String) :
    stack.Determines (stack.checkTruth name) (stack.truthCheck name) := by
  intro memo hs
  obtain ⟨after, ⟨hrun, h⟩, -⟩ := evaluate_settles name hs
  refine ⟨after, (Run.bind_state hrun).trans ?_, h⟩
  unfold truthCheck truthOf
  cases stack.truthUnder [] name with
  | ok b => rfl
  | error e =>
    cases e with
    | bare cause => cases cause <;> rfl
    | _ => rfl

variable (stack) in
def validity : Result Unit := do
  stack.conditions.forM fun (name, definition) => stack.checkDefinition name definition
  stack.conditions.keys.forM stack.truthCheck

variable (stack) in
theorem determines_validateConditions :
    stack.Determines stack.validateConditions stack.validity :=
  .bind (.forM fun _ => .lift _) fun _ => .forM determines_checkTruth

theorem determines_isEnabled (condition : Option Snippet) :
    ∃ r, stack.Determines (stack.isEnabled condition) r := by
  cases condition with
  | none => exact ⟨_, .lift (pure true)⟩
  | some s => exact ⟨_, determines_run _⟩

theorem determines_answer (request : Request) : ∃ r, stack.Determines (stack.answer request) r := by
  cases request with
  | truth name => exact ⟨_, (determines_evaluate name).map _⟩
  | enabled condition =>
    obtain ⟨r, h⟩ := stack.determines_isEnabled condition
    exact ⟨_, h.map _⟩
  | validation => exact ⟨_, stack.determines_validateConditions.map _⟩
  | value s => exact ⟨_, (determines_run _).map _⟩

theorem Determines.first_eq {x : Evaluation α} {r : Result α} (h : stack.Determines x r) :
    (x.run []).1 = r := by
  obtain ⟨after, hrun, -⟩ := h [] (Memo.sound_empty stack)
  rw [hrun]

theorem answers_cons {request : Request} {requests : List Request} {memo mid : Memo}
    {r : Result Answer} (h : (stack.answer request).run memo = (r, mid)) :
    (stack.answers (request :: requests)).run memo =
      (r :: ((stack.answers requests).run mid).1, ((stack.answers requests).run mid).2) := by
  simp only [answers, List.mapM_cons]
  exact (Run.bind_state h).trans (Run.bind_state rfl)

theorem answers_append (earlier later : List Request) (memo : Memo) :
    ((stack.answers (earlier ++ later)).run memo).2 =
      ((stack.answers later).run ((stack.answers earlier).run memo).2).2 := by
  simp only [answers, List.mapM_append]
  rfl

theorem answers_run {requests : List Request} {memo : Memo} (hs : Sound stack [] memo) :
    ∃ after, (stack.answers requests).run memo = (requests.map stack.firstAnswer, after) ∧
      Sound stack [] after ∧ after.Extends memo := by
  induction requests generalizing memo with
  | nil => exact ⟨memo, rfl, hs, .refl memo⟩
  | cons request requests ih =>
    obtain ⟨r, h⟩ := stack.determines_answer request
    obtain ⟨mid, hrun, hmid, hext⟩ := h memo hs
    obtain ⟨after, hrun', hafter, hext'⟩ := ih hmid
    refine ⟨after, ?_, hafter, hext'.trans hext⟩
    rw [answers_cons hrun, hrun', List.map_cons, firstAnswer, h.first_eq]

variable (stack) in
theorem answers_run_empty (requests : List Request) :
    ∃ after, (stack.answers requests).run [] = (requests.map stack.firstAnswer, after) ∧
      Sound stack [] after := by
  obtain ⟨after, hrun, hafter, -⟩ := answers_run (Memo.sound_empty stack)
  exact ⟨after, hrun, hafter⟩

def memoAfter (stack : Stack) (requests : List Request) : Memo :=
  ((stack.answers requests).run []).2

theorem sound_memoAfter (stack : Stack) (requests : List Request) :
    Sound stack [] (stack.memoAfter requests) := by
  obtain ⟨after, hrun, hafter⟩ := stack.answers_run_empty requests
  rwa [memoAfter, hrun]

theorem Determines.run_memoAfter {x : Evaluation α} {r : Result α} (h : stack.Determines x r)
    (earlier : List Request) : (x.run (stack.memoAfter earlier)).1 = r := by
  obtain ⟨after, hrun, -⟩ := h _ (stack.sound_memoAfter earlier)
  rw [hrun]

/-- The memo of a stack cannot be seen in its answers: whatever was asked before, each request is
answered as if it were the first. Between requests no condition is under way, and a truth that is
known is the one that is found without a memo and stays known. -/
theorem answers_eq_firstAnswer (stack : Stack) (requests : List Request) :
    ((stack.answers requests).run []).1 = requests.map stack.firstAnswer ∧
    (∀ name, ((stack.answers requests).run []).2.get? name ≠ some .inProgress) ∧
    (∀ name b, ((stack.answers requests).run []).2.get? name = some (.resolved b) →
      stack.truthOf name = .ok b ∧ ∀ more,
        ((stack.answers (requests ++ more)).run []).2.get? name = some (.resolved b)) ∧
    ∀ name, stack.firstAnswer (.truth name) = .truth <$> stack.truthOf name := by
  obtain ⟨after, hrun, hafter⟩ := stack.answers_run_empty requests
  have hlast : ((stack.answers requests).run []).2 = after := by rw [hrun]
  refine ⟨by rw [hrun], fun name h => ?_, fun name b h => ⟨?_, fun more => ?_⟩, fun name => ?_⟩
  · rw [hlast] at h
    exact absurd ((hafter.inProgress name).1 h) List.not_mem_nil
  · rw [hlast] at h
    exact hafter.truth h
  · rw [hlast] at h
    obtain ⟨last, hrun', -, hext⟩ := answers_run hafter
    rw [answers_append, hlast, hrun']
    exact hext name b h
  · exact ((determines_evaluate name).map Answer.truth).first_eq

end Stack

end Orchestration
