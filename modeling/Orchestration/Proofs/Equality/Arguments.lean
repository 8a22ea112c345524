import Orchestration.Proofs.Equality.Matching
import Orchestration.Proofs.Evaluation
import Orchestration.Proofs.Values.Results

namespace Orchestration

namespace Inquiry

variable {α β γ δ : Type} {find : String → Result Bool} {R : α → β → Prop} {S : γ → δ → Prop}

def Alike (find : String → Result Bool) (R : α → β → Prop) (q : Inquiry α) (q' : Inquiry β) :
    Prop :=
  Result.Alike R (q.run find) (q'.run find)

namespace Alike

theorem pure {a : α} {b : β} (h : R a b) : Alike find R (pure a) (pure b) := .ok h

theorem lift {r : Result α} {r' : Result β} (h : Result.Alike R r r') :
    Alike find R (liftM r : Inquiry α) (liftM r' : Inquiry β) := h

theorem refl {R : α → α → Prop} (hR : ∀ a, R a a) (q : Inquiry α) : Alike find R q q :=
  Result.Alike.refl hR _

theorem bind {q : Inquiry α} {q' : Inquiry β} {f : α → Inquiry γ} {g : β → Inquiry δ}
    (h : Alike find R q q') (hfg : ∀ a b, R a b → Alike find S (f a) (g b)) :
    Alike find S (q >>= f) (q' >>= g) := by
  rw [Alike, run_bind, run_bind]
  exact Result.Alike.bind h hfg

theorem map {q : Inquiry α} {q' : Inquiry β} {f : α → γ} {g : β → δ} (h : Alike find R q q')
    (hfg : ∀ a b, R a b → S (f a) (g b)) : Alike find S (f <$> q) (g <$> q') := by
  rw [Alike, run_map, run_map]
  exact Result.Alike.map h hfg

theorem mapM {P : γ → δ → Prop} {f : γ → Inquiry α} {g : δ → Inquiry β} {cs : List γ}
    {ds : List δ} (h : List.Forall₂ P cs ds) (hfg : ∀ c d, P c d → Alike find R (f c) (g d)) :
    Alike find (List.Forall₂ R) (cs.mapM f) (ds.mapM g) := by
  rw [Alike, run_mapM, run_mapM]
  exact Result.Alike.mapM h hfg

theorem foldlM {P : γ → δ → Prop} {f : α → γ → Inquiry α} {g : β → δ → Inquiry β} {cs : List γ}
    {ds : List δ} (h : List.Forall₂ P cs ds)
    (hfg : ∀ a b c d, R a b → P c d → Alike find R (f a c) (g b d)) {a : α} {b : β} (hab : R a b) :
    Alike find R (cs.foldlM f a) (ds.foldlM g b) := by
  rw [Alike, run_foldlM, run_foldlM]
  exact Result.Alike.foldlM h hfg hab

end Alike

end Inquiry

theorem Snippet.Layer.text?_eq {R : Snippet → Snippet → Prop} {s s' : Snippet} (h : Layer R s s') :
    s.text? = s'.text? := by
  cases h with
  | @scalar a b h => cases a <;> cases b <;> simp_all [Scalar.equal, Snippet.text?]
  | _ => rfl

namespace Evaluation

structure Operand.Alike (stack : Stack) (o o' : Operand) : Prop where
  written : Snippet.Layer (fun _ _ => True) o.written o'.written
  value : Inquiry.Alike stack.truthOf Value.Alike o.value o'.value

inductive Parts.Alike (stack : Stack) : Parts → Parts → Prop
  | single : Alike stack .single .single
  | items {os os' : List Operand} :
    List.Forall₂ (Operand.Alike stack) os os' → Alike stack (.items os) (.items os')
  | fields {os os' : Fields Operand} :
    (∀ key, Option.Rel (Operand.Alike stack) (os.get? key) (os'.get? key)) →
    Alike stack (.fields os) (.fields os')

structure Arguments.Alike (stack : Stack) (args args' : Arguments) : Prop where
  whole : args.whole.Alike stack args'.whole
  parts : args.parts.Alike stack args'.parts

variable {stack : Stack} {args args' : Arguments}

namespace Arguments.Alike

theorem items (h : args.Alike stack args') :
    List.Forall₂ (Operand.Alike stack) args.items args'.items := by
  have hparts := h.parts
  unfold Arguments.items
  generalize args.parts = parts at hparts
  generalize args'.parts = parts' at hparts
  cases hparts with
  | items h => exact h
  | _ => exact .nil

theorem field? (h : args.Alike stack args') (key : String) :
    Option.Rel (Operand.Alike stack) (args.field? key) (args'.field? key) := by
  have hparts := h.parts
  unfold Arguments.field?
  generalize args.parts = parts at hparts
  generalize args'.parts = parts' at hparts
  cases hparts with
  | fields h => exact h key
  | _ => exact .none

end Arguments.Alike

theorem Operand.Alike.isEnabled {o o' : Operand} (h : o.Alike stack o') :
    Inquiry.Alike stack.truthOf (· = ·) o.isEnabled o'.isEnabled := by
  have hwritten := h.written
  unfold Operand.isEnabled
  generalize o.written = s at hwritten
  generalize o'.written = s' at hwritten
  cases hwritten with
  | @scalar a b heq =>
    cases a <;> cases b <;> simp only [Scalar.equal, decide_eq_true_eq, reduceCtorEq] at heq
    all_goals first | (cases heq; exact .refl (fun _ => rfl) _) | exact .error
  | list => exact .error
  | map => exact .error
  | call =>
    refine h.value.bind fun v w hv => ?_
    cases hv.cases with
    | scalar => exact .refl (fun _ => rfl) _
    | _ => exact .error

namespace Site

variable {site : Site} {form : Form} {find : String → Result Bool}

theorem pair_alike (h : args.Alike stack args') {f f' : Operand → Operand → Inquiry Value}
    (hf : ∀ {a a' b b'}, a.Alike stack a' → b.Alike stack b' →
      Inquiry.Alike find Value.Alike (f a b) (f' a' b')) :
    Inquiry.Alike find Value.Alike
      (match args.items with
        | [a, b] => f a b
        | _ => (site.refuseShape form : Result Value))
      (match args'.items with
        | [a, b] => f' a b
        | _ => (site.refuseShape form : Result Value)) := by
  have hitems := h.items
  generalize args.items = os at hitems
  generalize args'.items = os' at hitems
  rcases hitems with _ | ⟨ha, _ | ⟨hb, _ | ⟨_, _⟩⟩⟩
  · exact .error
  · exact .error
  · exact hf ha hb
  · exact .error

theorem triple_alike (h : args.Alike stack args')
    {f f' : Operand → Operand → Operand → Inquiry Value}
    (hf : ∀ {a a' b b' c c'}, a.Alike stack a' → b.Alike stack b' → c.Alike stack c' →
      Inquiry.Alike find Value.Alike (f a b c) (f' a' b' c')) :
    Inquiry.Alike find Value.Alike
      (match args.items with
        | [a, b, c] => f a b c
        | _ => (site.refuseShape form : Result Value))
      (match args'.items with
        | [a, b, c] => f' a b c
        | _ => (site.refuseShape form : Result Value)) := by
  have hitems := h.items
  generalize args.items = os at hitems
  generalize args'.items = os' at hitems
  rcases hitems with _ | ⟨ha, _ | ⟨hb, _ | ⟨hc, _ | ⟨_, _⟩⟩⟩⟩
  · exact .error
  · exact .error
  · exact .error
  · exact hf ha hb hc
  · exact .error

end Site

end Evaluation

end Orchestration
