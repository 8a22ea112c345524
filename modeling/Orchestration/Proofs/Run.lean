import Mathlib.Data.List.Forall2
import Orchestration.Error

/-!
Runs of computations that keep a state and may fail. The state outlives a failure.
-/

namespace Orchestration.Run

variable {σ α β : Type} {x : ExceptT Error (StateM σ) α} {f : α → ExceptT Error (StateM σ) β}
  {before after : σ}

theorem exists_of_bind_ok {x : Result α} {f : α → Result β} {b : β} (h : x >>= f = .ok b) :
    ∃ a, x = .ok a ∧ f a = .ok b := by
  cases x with
  | error e => cases h
  | ok a => exact ⟨a, rfl, h⟩

theorem ok_bind {x : Result α} {f : α → Result β} {a : α} (h : x = .ok a) : (x >>= f) = f a := by
  rw [h]
  rfl

theorem located_eq_ok_iff {path : Breadcrumb} {r : Result α} {a : α} :
    located path r = .ok a ↔ r = .ok a := by
  cases r with
  | error e => exact ⟨nofun, nofun⟩
  | ok b => exact Iff.rfl

theorem error_of_bind {x : Result α} {f : α → Result β} {e : Error} (h : x >>= f = .error e) :
    x = .error e ∨ ∃ a, x = .ok a ∧ f a = .error e := by
  cases x with
  | error e' =>
    cases h
    exact .inl rfl
  | ok a => exact .inr ⟨a, rfl, h⟩

theorem exists_of_located_error {path : Breadcrumb} {r : Result α} {e : Error}
    (h : located path r = .error e) : ∃ e', r = .error e' ∧ e = e'.atPath path := by
  cases r with
  | error e' =>
    cases h
    exact ⟨e', rfl, rfl⟩
  | ok a => cases h

theorem error_of_map {x : Result α} {g : α → β} {e : Error} (h : g <$> x = .error e) :
    x = .error e := by
  cases x with
  | error e' =>
    cases h
    rfl
  | ok a => cases h

theorem exists_of_map_ok {x : Result α} {g : α → β} {b : β} (h : g <$> x = .ok b) :
    ∃ a, x = .ok a ∧ g a = b := by
  cases x with
  | error e => cases h
  | ok a => exact ⟨a, rfl, Except.ok.inj h⟩

theorem map_eq_ok_iff {x : Result α} {g : α → β} {b : β} :
    g <$> x = .ok b ↔ ∃ a, x = .ok a ∧ g a = b := by
  refine ⟨exists_of_map_ok, ?_⟩
  rintro ⟨a, rfl, rfl⟩
  rfl

theorem mapM_eq_ok_iff {f : α → Result β} {as : List α} {bs : List β} :
    as.mapM f = .ok bs ↔ List.Forall₂ (f · = .ok ·) as bs := by
  constructor
  · intro h
    induction as generalizing bs with
    | nil =>
      cases h
      exact .nil
    | cons a as ih =>
      rw [List.mapM_cons] at h
      obtain ⟨b, hb, h⟩ := exists_of_bind_ok h
      obtain ⟨bs, hbs, h⟩ := exists_of_bind_ok h
      cases h
      exact .cons hb (ih hbs)
  · intro h
    induction h with
    | nil => rfl
    | cons hb _ ih =>
      rw [List.mapM_cons]
      exact (ok_bind hb).trans (ok_bind ih)

theorem foldlM_eq_ok_iff {γ : Type} {f : β → α → Result β} {R : α → γ → Prop} {g : β → γ → β}
    (h : ∀ b a b', f b a = .ok b' ↔ ∃ x, R a x ∧ b' = g b x) {as : List α} {b b' : β} :
    as.foldlM f b = .ok b' ↔ ∃ xs, List.Forall₂ R as xs ∧ b' = xs.foldl g b := by
  constructor
  · intro hfold
    induction as generalizing b with
    | nil =>
      cases hfold
      exact ⟨[], .nil, rfl⟩
    | cons a as ih =>
      rw [List.foldlM_cons] at hfold
      obtain ⟨mid, hmid, hfold⟩ := exists_of_bind_ok hfold
      obtain ⟨x, hx, rfl⟩ := (h b a mid).1 hmid
      obtain ⟨xs, hxs, rfl⟩ := ih hfold
      exact ⟨x :: xs, .cons hx hxs, rfl⟩
  · rintro ⟨xs, hxs, rfl⟩
    induction hxs generalizing b with
    | nil => rfl
    | @cons a x as xs hx _ ih =>
      rw [List.foldlM_cons]
      exact (ok_bind ((h b a _).2 ⟨x, hx, rfl⟩)).trans ih

theorem bind_state {x : StateM σ α} {f : α → StateM σ β} {a : α} (h : x before = (a, after)) :
    (x >>= f) before = f a after := by
  change (StateT.bind x f) before = _
  simp only [StateT.bind, bind]
  rw [h]

theorem bind_ok {a : α} (h : x.run before = (.ok a, after)) :
    (x >>= f).run before = (f a).run after := by
  change (StateT.bind x (ExceptT.bindCont f)) before = _
  simp only [StateT.bind, bind]
  rw [show x before = (.ok a, after) from h]
  rfl

theorem bind_error {e : Error} (h : x.run before = (.error e, after)) :
    (x >>= f).run before = (.error e, after) := by
  change (StateT.bind x (ExceptT.bindCont f)) before = _
  simp only [StateT.bind, bind]
  rw [show x before = (.error e, after) from h]
  rfl

theorem bind_run_congr {y : ExceptT Error (StateM σ) α} (h : x.run before = y.run before) :
    (x >>= f).run before = (y >>= f).run before := by
  cases hx : x.run before with
  | mk outcome mid =>
    rw [hx] at h
    cases outcome with
    | error e => rw [bind_error hx, bind_error h.symm]
    | ok a => rw [bind_ok hx, bind_ok h.symm]

theorem map_run (g : α → β) :
    (g <$> x).run before = (g <$> (x.run before).1, (x.run before).2) := by
  rw [← bind_pure_comp]
  cases hx : x.run before with
  | mk outcome mid =>
    cases outcome with
    | error e => exact bind_error hx
    | ok a => exact bind_ok hx

theorem exists_of_bind {b : β} (h : (x >>= f).run before = (.ok b, after)) :
    ∃ a mid, x.run before = (.ok a, mid) ∧ (f a).run mid = (.ok b, after) := by
  cases hx : x.run before with
  | mk outcome mid =>
    cases outcome with
    | error e =>
      rw [bind_error hx] at h
      cases h
    | ok a => exact ⟨a, mid, rfl, (bind_ok hx).symm.trans h⟩

theorem exists_of_map {g : α → β} {b : β} (h : (g <$> x).run before = (.ok b, after)) :
    ∃ a, x.run before = (.ok a, after) ∧ g a = b := by
  rw [← bind_pure_comp] at h
  obtain ⟨a, mid, hx, ha⟩ := exists_of_bind h
  cases ha
  exact ⟨a, hx, rfl⟩

theorem lift_run (r : Result α) :
    (liftM r : ExceptT Error (StateM σ) α).run before = (r, before) := rfl

theorem exists_of_lift {r : Result α} {a : α}
    (h : (liftM r : ExceptT Error (StateM σ) α).run before = (.ok a, after)) :
    r = .ok a ∧ after = before := by
  rw [lift_run] at h
  exact ⟨congrArg Prod.fst h, (congrArg Prod.snd h).symm⟩

theorem exists_of_forM {γ : Type} {f : γ → ExceptT Error (StateM σ) Unit} {cs : List γ}
    (h : (cs.forM f).run before = (.ok (), after)) :
    ∀ c ∈ cs, ∃ mid mid', (f c).run mid = (.ok (), mid') := by
  induction cs generalizing before with
  | nil => simp
  | cons c cs ih =>
    obtain ⟨_, mid, hc, hcs⟩ := exists_of_bind h
    rintro other ⟨⟩
    · exact ⟨before, mid, hc⟩
    · exact ih hcs other ‹_›

end Orchestration.Run

namespace Orchestration

variable {α β : Type}

def Result.IsBare (r : Result α) : Prop := ∀ e, r = .error e → ∃ cause, e = .bare cause

namespace Result.IsBare

@[simp] theorem pure (a : α) : IsBare (pure a) := nofun

@[simp] theorem bare (cause : Cause) : IsBare (.error (.bare cause) : Result α) := by
  rintro _ ⟨⟩
  exact ⟨cause, rfl⟩

@[simp] theorem fault (f : TemplateFault) : IsBare (fault f : Result α) := bare (.template f)

theorem bind {r : Result α} {f : α → Result β} (hr : IsBare r) (hf : ∀ a, IsBare (f a)) :
    IsBare (r >>= f) := by
  intro e h
  obtain h | ⟨a, -, h⟩ := Run.error_of_bind h
  · exact hr e h
  · exact hf a e h

@[simp] theorem ite {c : Prop} [Decidable c] {r r' : Result α} (hr : IsBare r)
    (hr' : IsBare r') : IsBare (if c then r else r') := by
  split
  · exact hr
  · exact hr'

@[simp] theorem forM {f : α → Result Unit} {as : List α} (h : ∀ a, IsBare (f a)) :
    IsBare (ForM.forM as f) := by
  induction as with
  | nil => exact pure ()
  | cons a as ih => exact (h a).bind fun _ => ih

end Result.IsBare

end Orchestration
