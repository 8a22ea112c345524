import Orchestration.Properties.View
import Orchestration.Proofs.Migration.Migrate

namespace Orchestration.PropertyView

open Migration (Reading Tables Coherent)

inductive Request
  | property (key : String)
  | all

inductive Answer
  | value (v : Option Value)
  | fields (fields : Fields Value)

variable {α β : Type} (view : PropertyView)

def answer : Request → Reading Answer
  | .property key => .value <$> view.read key
  | .all => .fields <$> view.readAll

def answers (requests : List Request) : StateM Tables (List (Result Answer)) :=
  requests.mapM fun request => (view.answer request).run

def fresh (key : String) : Result (Option Value) := ((view.read key).run .empty).1

/-- The answer to a request, each property read before any other. -/
def freshAnswer : Request → Result Answer
  | .property key => .value <$> view.fresh key
  | .all => .fields <$> view.collect view.fresh

def Settled (tables : Tables) : Prop :=
  ∀ m ∈ view.migration, Coherent m view.properties tables ∧ tables.inProgress = []

/-- A reading that comes to the same with any tables between two requests. -/
def Determines (x : Reading α) (r : Result α) : Prop :=
  ∀ tables, view.Settled tables → ∃ after, x.run tables = (r, after) ∧ view.Settled after

def outcome (key : String) : Result (Option Value) :=
  match view.migration with
  | none => view.properties.value key
  | some m =>
    if m.masks key then pure none
    else if m.affects key then
      (·.filter (!·.isNull)) <$> (m.outcome view.properties key).value
    else view.properties.value key

variable {view}

theorem settled_empty : view.Settled .empty := fun _ _ => ⟨Migration.coherent_empty, rfl⟩

namespace Determines

theorem lift (r : Result α) : view.Determines (liftM r) r := fun tables hs => ⟨tables, rfl, hs⟩

theorem bind {x : Reading α} {r : Result α} {f : α → Reading β} {g : α → Result β}
    (hx : view.Determines x r) (hf : ∀ a, view.Determines (f a) (g a)) :
    view.Determines (x >>= f) (r >>= g) := by
  intro tables hs
  obtain ⟨mid, hrun, hmid⟩ := hx tables hs
  cases r with
  | error e => exact ⟨mid, Run.bind_error hrun, hmid⟩
  | ok a =>
    obtain ⟨after, hrun', hafter⟩ := hf a mid hmid
    exact ⟨after, (Run.bind_ok hrun).trans hrun', hafter⟩

theorem map (f : α → β) {x : Reading α} {r : Result α} (hx : view.Determines x r) :
    view.Determines (f <$> x) (f <$> r) := by
  rw [← bind_pure_comp, ← bind_pure_comp]
  exact hx.bind fun a => .lift (pure (f a))

theorem foldlM {f : β → α → Reading β} {g : β → α → Result β}
    (h : ∀ b a, view.Determines (f b a) (g b a)) (as : List α) (b : β) :
    view.Determines (as.foldlM f b) (as.foldlM g b) := by
  induction as generalizing b with
  | nil => exact .lift (pure b)
  | cons a as ih => exact (h b a).bind ih

theorem first_eq {x : Reading α} {r : Result α} (h : view.Determines x r) :
    (x.run .empty).1 = r := by
  obtain ⟨after, hrun, -⟩ := h .empty settled_empty
  rw [hrun]

end Determines

theorem determines_migrate {m : Migration} (hm : m.Untangled) (hv : view.migration = some m)
    (key : String) :
    view.Determines (m.migrate view.properties key) (m.outcome view.properties key).value := by
  intro tables hs
  obtain ⟨hcoh, hprog⟩ := hs m hv
  obtain ⟨rank, hle, hlt⟩ := Migration.exists_rank hm.acyclic
  obtain ⟨after, hafter, -⟩ := Migration.migrateWith_finds hm hlt
    (Nat.lt_succ_of_le (hle key)) hcoh (by simp [hprog])
  refine ⟨after, hafter.run, fun m' hm' => ?_⟩
  rw [hv] at hm'
  cases hm'
  exact ⟨hafter.coherent, hafter.inProgress.trans hprog⟩

theorem determines_read (h : ∀ m ∈ view.migration, m.Untangled) (key : String) :
    view.Determines (view.read key) (view.outcome key) := by
  unfold read outcome
  cases hv : view.migration with
  | none => exact .lift _
  | some m =>
    dsimp only
    split
    · exact .lift _
    · split
      · have hd := (determines_migrate (h m hv) hv key).map (·.filter (!·.isNull))
        rwa [← bind_pure_comp] at hd
      · exact .lift _

theorem fresh_eq (h : ∀ m ∈ view.migration, m.Untangled) (key : String) :
    view.fresh key = view.outcome key := (determines_read h key).first_eq

theorem determines_answer (h : ∀ m ∈ view.migration, m.Untangled) (request : Request) :
    view.Determines (view.answer request) (view.freshAnswer request) := by
  have hread : ∀ key, view.Determines (view.read key) (view.fresh key) := by
    intro key
    rw [fresh_eq h]
    exact determines_read h key
  cases request with
  | property key => exact (hread key).map _
  | all =>
    refine Determines.map _ (.foldlM (fun found key => (hread key).bind fun v => ?_) _ _)
    cases v <;> exact .lift (pure _)

theorem answers_cons {request : Request} {requests : List Request} {tables mid : Tables}
    {r : Result Answer} (h : (view.answer request).run tables = (r, mid)) :
    (view.answers (request :: requests)).run tables =
      (r :: ((view.answers requests).run mid).1, ((view.answers requests).run mid).2) := by
  simp only [answers, List.mapM_cons]
  exact (Run.bind_state h).trans (Run.bind_state rfl)

theorem settled_answers (h : ∀ m ∈ view.migration, m.Untangled) (requests : List Request) :
    view.Settled ((view.answers requests).run .empty).2 := by
  suffices hall : ∀ tables, view.Settled tables →
      view.Settled ((view.answers requests).run tables).2 from hall .empty settled_empty
  induction requests with
  | nil => exact fun _ hs => hs
  | cons request requests ih =>
    intro tables hs
    obtain ⟨after, hrun, hafter⟩ := determines_answer h request tables hs
    rw [answers_cons hrun]
    exact ih after hafter

end Orchestration.PropertyView
