import Orchestration.Proofs.Run

/-!
Contracts of computations that keep a state and may fail: what every state has, how results are, and
which failures may happen.
-/

namespace Orchestration

variable {σ α β : Type} {E : Error → Prop} {P P' : α → Prop} {Q : β → Prop}

namespace Result

inductive Meets (E : Error → Prop) (P : α → Prop) : Result α → Prop
  | ok {a} (h : P a) : Meets E P (.ok a)
  | error {e} (h : E e) : Meets E P (.error e)

namespace Meets

variable {r : Result α}

theorem of_ok {a : α} (h : Meets E P (.ok a)) : P a := by
  cases h with
  | ok h => exact h

theorem of_error {e : Error} (h : Meets E P (.error e)) : E e := by
  cases h with
  | error h => exact h

theorem of_forall (h : ∀ a, r = .ok a → P a) : Meets (fun _ => True) P r := by
  cases r with
  | ok a => exact .ok (h a rfl)
  | error e => exact .error trivial

theorem imp (h : Meets E P r) (hP : ∀ a, P a → P' a) : Meets E P' r := by
  cases h with
  | ok h => exact .ok (hP _ h)
  | error h => exact .error h

theorem and (h : Meets E P r) (h' : Meets E P' r) : Meets E (fun a => P a ∧ P' a) r := by
  cases h with
  | ok ha => exact .ok ⟨ha, h'.of_ok⟩
  | error he => exact .error he

theorem bind {f : α → Result β} (h : Meets E P r) (hf : ∀ a, P a → Meets E Q (f a)) :
    Meets E Q (r >>= f) := by
  cases h with
  | ok h => exact hf _ h
  | error h => exact .error h

theorem map_iff {f : α → β} : Meets E Q (f <$> r) ↔ Meets E (fun a => Q (f a)) r := by
  cases r with
  | error e => exact ⟨fun h => .error h.of_error, fun h => .error h.of_error⟩
  | ok a => exact ⟨fun h => .ok h.of_ok, fun h => .ok h.of_ok⟩

end Meets

end Result

namespace Run

def Meets (I : σ → Prop) (E : Error → Prop) (P : α → Prop) (x : ExceptT Error (StateM σ) α) :
    Prop :=
  ∀ before, I before → Result.Meets E P (x.run before).1 ∧ I (x.run before).2

namespace Meets

variable {I : σ → Prop} {x : ExceptT Error (StateM σ) α} {f : α → ExceptT Error (StateM σ) β}

theorem lift {r : Result α} (h : Result.Meets E P r) : Meets I E P (liftM r) :=
  fun _ hbefore => ⟨h, hbefore⟩

theorem pure {a : α} (h : P a) : Meets I E P (pure a) := lift (.ok h)

theorem imp (h : Meets I E P x) (hP : ∀ a, P a → P' a) : Meets I E P' x :=
  fun before hbefore => ⟨(h before hbefore).1.imp hP, (h before hbefore).2⟩

theorem and (h : Meets I E P x) (h' : Meets I E P' x) : Meets I E (fun a => P a ∧ P' a) x :=
  fun before hbefore => ⟨(h before hbefore).1.and (h' before hbefore).1, (h before hbefore).2⟩

theorem bind (h : Meets I E P x) (hf : ∀ a, P a → Meets I E Q (f a)) : Meets I E Q (x >>= f) := by
  intro before hbefore
  obtain ⟨hresult, hmid⟩ := h before hbefore
  cases hrun : x.run before with
  | mk outcome mid =>
    rw [hrun] at hresult hmid
    cases hresult with
    | ok ha =>
      rw [bind_ok hrun]
      exact hf _ ha mid hmid
    | error he =>
      rw [bind_error hrun]
      exact ⟨.error he, hmid⟩

theorem map {g : α → β} (h : Meets I E (fun a => Q (g a)) x) : Meets I E Q (g <$> x) := by
  rw [← bind_pure_comp]
  exact h.bind fun _ ha => pure ha

theorem mapM {g : α → ExceptT Error (StateM σ) β} {as : List α}
    (h : ∀ a ∈ as, Meets I E Q (g a)) : Meets I E (fun bs => ∀ b ∈ bs, Q b) (as.mapM g) := by
  induction as with
  | nil =>
    rw [List.mapM_nil]
    exact pure nofun
  | cons a as ih =>
    rw [List.mapM_cons]
    refine (h a List.mem_cons_self).bind fun b hb => ?_
    refine (ih fun a ha => h a (List.mem_cons_of_mem _ ha)).bind fun bs hbs => pure ?_
    exact List.forall_mem_cons.2 ⟨hb, hbs⟩

theorem forM {g : α → ExceptT Error (StateM σ) Unit} {as : List α}
    (h : ∀ a ∈ as, Meets I E (fun _ => True) (g a)) : Meets I E (fun _ => True) (as.forM g) := by
  induction as with
  | nil => exact pure trivial
  | cons a as ih =>
    exact (h a List.mem_cons_self).bind fun _ _ => ih fun a ha => h a (List.mem_cons_of_mem _ ha)

theorem foldlM {g : β → α → ExceptT Error (StateM σ) β} {as : List α} {b : β}
    (h : ∀ b, Q b → ∀ a ∈ as, Meets I E Q (g b a)) (hb : Q b) :
    Meets I E Q (as.foldlM g b) := by
  induction as generalizing b with
  | nil => exact pure hb
  | cons a as ih =>
    rw [List.foldlM_cons]
    refine (h b hb a List.mem_cons_self).bind fun b hb => ?_
    exact ih (fun b hb a ha => h b hb a (List.mem_cons_of_mem _ ha)) hb

end Meets

end Run

end Orchestration
