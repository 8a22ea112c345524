import Orchestration.Error

/-!
Inquiries: evaluations that ask for the truth of named conditions on their way. What an inquiry
asks next depends on the truths it was told before; how they are found is up to who carries it out.
-/

namespace Orchestration

/-- What an evaluation finds, or the condition that it asks for and how it goes on. -/
inductive Inquiry (α : Type)
  | done (r : Result α)
  | ask (name : String) (next : Bool → Inquiry α)

namespace Inquiry

variable {α β : Type}

def bind : Inquiry α → (α → Inquiry β) → Inquiry β
  | done (.ok a), next => next a
  | done (.error e), _ => done (.error e)
  | ask name answer, next => ask name fun b => (answer b).bind next

instance : Monad Inquiry where
  pure a := done (.ok a)
  bind := bind

instance : MonadLift Result Inquiry := ⟨done⟩

def truth (name : String) : Inquiry Bool := ask name pure

def stop (cause : Cause) : Inquiry α := done (.error (.bare cause))

def run {m : Type → Type} [Monad m] [MonadLiftT Result m] (find : String → m Bool) :
    Inquiry α → m α
  | done r => liftM r
  | ask name next => do (next (← find name)).run find

/-- The conditions that an inquiry asks for, as far as their truths are known. -/
def asked (known : String → Option Bool) : Inquiry α → List String
  | done _ => []
  | ask name next =>
    name :: match known name with
      | some b => (next b).asked known
      | none => []

end Inquiry

end Orchestration
