import Orchestration.Proofs.Migration.Alike

namespace Orchestration.Migration

variable {α β : Type} {m : Migration} {p : Properties} {tables tables' after : Tables}
  {key : String}

/-- Nothing is taken out of a property, and its rules leave it as it is written. -/
structure Still (m : Migration) (p : Properties) (key : String) : Prop where
  movedFrom : m.movedFrom key = []
  applyRules : ∀ tables, loaded p tables key = p.value key →
    (m.applyRules p key).run tables = (p.value key, tables)

structure Faithful (m : Migration) (p : Properties) (tables : Tables) : Prop where
  loaded : ∀ {key}, m.Still p key → loaded p tables key = p.value key
  cached : ∀ {key v}, m.Still p key → tables.cache.get? key = some v → p.value key = .ok v

structure Agree (m : Migration) (p : Properties) (tables tables' : Tables) : Prop where
  residue : tables.residue = tables'.residue
  inProgress : tables.inProgress = tables'.inProgress
  cache : ∀ key, ¬m.Still p key → tables.cache.get? key = tables'.cache.get? key
  left : m.Faithful p tables
  right : m.Faithful p tables'

def Remembers (p : Properties) (key : String) (tables after : Tables) : Prop :=
  after = tables ∨
    ∃ v, p.value key = .ok v ∧ after = { tables with cache := tables.cache.insert key v }

theorem loaded_congr (h : tables.residue = tables'.residue) :
    loaded p tables = loaded p tables' := by
  funext key
  simp only [loaded, h]

theorem Faithful.remember (h : m.Faithful p tables) {v : Option Value}
    (hv : m.Still p key → p.value key = .ok v) :
    m.Faithful p { tables with cache := tables.cache.insert key v } where
  loaded := h.loaded
  cached := by
    intro other w hs hw
    rw [Fields.get?_insert] at hw
    split at hw
    · next hk =>
      subst hk
      cases hw
      exact hv hs
    · exact h.cached hs hw

theorem Still.applyOrLoad_run (h : m.Still p key) (hl : loaded p tables key = p.value key) :
    ∃ after, (m.applyOrLoad p key).run tables = (p.value key, after) ∧
      Remembers p key tables after := by
  rw [Migration.applyOrLoad_run, h.applyRules tables hl]
  cases hv : p.value key with
  | ok v => exact ⟨_, rfl, .inr ⟨v, hv, rfl⟩⟩
  | error e =>
    refine ⟨tables, ?_, .inl rfl⟩
    rw [hv] at hl
    cases e with
    | bare cause => cases cause <;> first | rfl | exact congrArg (·, tables) hl
    | _ => rfl

theorem Still.retrieve_run (h : m.Still p key) (hf : m.Faithful p tables)
    {new : Reading (Option Value)}
    (hnew : ∃ after, new.run tables = (p.value key, after) ∧ Remembers p key tables after) :
    ∃ after, (retrieve p key new).run tables = (p.value key, after) ∧
      Remembers p key tables after := by
  rw [Migration.retrieve_run]
  cases hc : tables.cache.get? key with
  | some v => exact ⟨tables, by rw [hf.cached h hc], .inl rfl⟩
  | none =>
    cases tables.inProgress.contains key with
    | true => exact ⟨tables, by rw [hf.loaded h], .inl rfl⟩
    | false => exact hnew

theorem Still.migrateWith_run (h : m.Still p key) (hf : m.Faithful p tables) (fuel : Nat) :
    ∃ after, (m.migrateWith p fuel key).run tables = (p.value key, after) ∧
      Remembers p key tables after := by
  cases fuel with
  | zero =>
    refine h.retrieve_run hf ⟨tables, ?_, .inl rfl⟩
    rw [load_run, hf.loaded h]
  | succ fuel =>
    refine h.retrieve_run hf ?_
    have hl : loaded p { tables with inProgress := key :: tables.inProgress } key = p.value key :=
      hf.loaded h
    obtain ⟨after, hrun, hafter⟩ := h.applyOrLoad_run hl
    have hdone : ((([] : List String).forM fun other => discard (m.migrateWith p fuel other)) >>=
        fun _ => m.applyOrLoad p key).run _ = (p.value key, after) := (Run.bind_ok rfl).trans hrun
    rw [h.movedFrom, guarded_run, hdone]
    refine ⟨_, rfl, ?_⟩
    obtain rfl | ⟨v, hv, rfl⟩ := hafter
    · exact .inl (by simp)
    · exact .inr ⟨v, hv, by simp⟩

namespace Agree

theorem symm (h : m.Agree p tables tables') : m.Agree p tables' tables where
  residue := h.residue.symm
  inProgress := h.inProgress.symm
  cache key hs := (h.cache key hs).symm
  left := h.right
  right := h.left

theorem loaded (h : m.Agree p tables tables') : loaded p tables = loaded p tables' :=
  loaded_congr h.residue

theorem refl (h : m.Faithful p tables) : m.Agree p tables tables := ⟨rfl, rfl, fun _ _ => rfl, h, h⟩

theorem of_remembers (h : m.Agree p tables tables') (hs : m.Still p key)
    (hr : Remembers p key tables after) : m.Agree p after tables' := by
  obtain rfl | ⟨v, hv, rfl⟩ := hr
  · exact h
  · refine ⟨h.residue, h.inProgress, fun other ho => ?_, h.left.remember fun _ => hv, h.right⟩
    have hne : key ≠ other := by
      rintro rfl
      exact ho hs
    simpa [Fields.get?_insert, hne] using h.cache other ho

theorem guard (h : m.Agree p tables tables') (under : List String) :
    m.Agree p { tables with inProgress := under } { tables' with inProgress := under } :=
  ⟨h.residue, rfl, h.cache, ⟨h.left.loaded, h.left.cached⟩, ⟨h.right.loaded, h.right.cached⟩⟩

theorem ask (h : m.Agree p tables tables') (queries queries' : List Query) :
    m.Agree p { tables with queries := queries } { tables' with queries := queries' } :=
  ⟨h.residue, h.inProgress, h.cache, ⟨h.left.loaded, h.left.cached⟩,
    ⟨h.right.loaded, h.right.cached⟩⟩

theorem remember (h : m.Agree p tables tables') (hs : ¬m.Still p key) (v : Option Value) :
    m.Agree p { tables with cache := tables.cache.insert key v }
      { tables' with cache := tables'.cache.insert key v } where
  residue := h.residue
  inProgress := h.inProgress
  cache other ho := by simp only [Fields.get?_insert, h.cache other ho]
  left := h.left.remember fun hs' => absurd hs' hs
  right := h.right.remember fun hs' => absurd hs' hs

end Agree

theorem Faithful.leave (h : m.Faithful p tables) (hs : ¬m.Still p key) (v : Option Value) :
    m.Faithful p { tables with residue := tables.residue.insert key v } where
  loaded := by
    intro other ho
    have hne : key ≠ other := by
      rintro rfl
      exact hs ho
    simpa [Migration.loaded, Fields.get?_insert, hne] using h.loaded ho
  cached := h.cached

theorem Agree.leave (h : m.Agree p tables tables') (hs : ¬m.Still p key) (v : Option Value) :
    m.Agree p { tables with residue := tables.residue.insert key v }
      { tables' with residue := tables'.residue.insert key v } :=
  ⟨by rw [h.residue], h.inProgress, h.cache, h.left.leave hs v, h.right.leave hs v⟩

/-- Readings that come to the same with tables that agree, and leave tables that agree. -/
def Tracks (m : Migration) (p : Properties) (x y : Reading α) : Prop :=
  ∀ tables tables', m.Agree p tables tables' →
    (x.run tables).1 = (y.run tables').1 ∧ m.Agree p (x.run tables).2 (y.run tables').2

namespace Tracks

theorem lift (r : Result α) : m.Tracks p (liftM r : Reading α) (liftM r) := fun _ _ h => ⟨rfl, h⟩

theorem bind {x y : Reading α} {f g : α → Reading β} (hx : m.Tracks p x y)
    (hf : ∀ a, m.Tracks p (f a) (g a)) : m.Tracks p (x >>= f) (y >>= g) := by
  intro tables tables' h
  obtain ⟨hout, hmid⟩ := hx _ _ h
  cases hrun : x.run tables with
  | mk outcome mid =>
    cases hrun' : y.run tables' with
    | mk outcome' mid' =>
      simp only [hrun, hrun'] at hout hmid
      subst hout
      cases outcome with
      | error e =>
        rw [Run.bind_error hrun, Run.bind_error hrun']
        exact ⟨rfl, hmid⟩
      | ok a =>
        rw [Run.bind_ok hrun, Run.bind_ok hrun']
        exact hf a _ _ hmid

theorem map (f : α → β) {x y : Reading α} (h : m.Tracks p x y) :
    m.Tracks p (f <$> x) (f <$> y) := by
  rw [← bind_pure_comp, ← bind_pure_comp]
  exact h.bind fun _ => .lift (pure _)

theorem forM {f g : α → Reading Unit} {as : List α} (h : ∀ a ∈ as, m.Tracks p (f a) (g a)) :
    m.Tracks p (as.forM f) (as.forM g) := by
  induction as with
  | nil => exact lift (pure ())
  | cons a as ih =>
    exact (h a (List.mem_cons_self ..)).bind fun _ => ih fun b hb => h b (List.mem_cons_of_mem _ hb)

theorem foldlM {f g : β → α → Reading β} (h : ∀ b a, m.Tracks p (f b a) (g b a)) (as : List α)
    (b : β) : m.Tracks p (as.foldlM f b) (as.foldlM g b) := by
  induction as generalizing b with
  | nil => exact lift (pure b)
  | cons a as ih => exact (h b a).bind ih

theorem guarded {x y : Reading α} (h : m.Tracks p x y) (key : String) :
    m.Tracks p (.guarded key x) (.guarded key y) := by
  intro tables tables' ha
  obtain ⟨hout, hafter⟩ := h _ _ (ha.guard (key :: tables.inProgress))
  rw [guarded_run, guarded_run, ← ha.inProgress]
  refine ⟨hout, ?_⟩
  dsimp only
  rw [← hafter.inProgress]
  exact hafter.guard _

theorem load (key : String) : m.Tracks p (load p key) (load p key) := by
  intro tables tables' h
  rw [load_run, load_run, h.loaded]
  exact ⟨rfl, h⟩

theorem gather (keys : List String) :
    m.Tracks p (gather (Migration.load p) keys) (gather (Migration.load p) keys) := by
  intro tables tables' h
  rw [gather_run, gather_run, h.loaded]
  exact ⟨rfl, h⟩

theorem ofApplying (x : Applying α) : m.Tracks p (.ofApplying x) (.ofApplying x) := by
  intro tables tables' h
  rw [ofApplying_run, ofApplying_run]
  exact ⟨rfl, h.ask _ _⟩

theorem leave (hs : ¬m.Still p key) (v : Option Value) :
    m.Tracks p (.leave key v) (.leave key v) := fun _ _ h => ⟨rfl, h.leave hs v⟩

theorem retrieve {x y : Reading (Option Value)} (hs : ¬m.Still p key) (h : m.Tracks p x y) :
    m.Tracks p (retrieve p key x) (retrieve p key y) := by
  intro tables tables' ha
  rw [retrieve_run, retrieve_run, ← ha.cache key hs, ← ha.inProgress, ← ha.loaded]
  cases tables.cache.get? key with
  | some v => exact ⟨rfl, ha⟩
  | none =>
    cases tables.inProgress.contains key with
    | true => exact ⟨rfl, ha⟩
    | false => exact h _ _ ha

end Tracks

theorem not_still_of_moves {other : String} (h : m.Moves other key) : ¬m.Still p key := by
  intro hs
  rw [Moves, hs.movedFrom] at h
  cases h

theorem tracks_applyRules (m : Migration) (p : Properties) (key : String) :
    m.Tracks p (m.applyRules p key) (m.applyRules p key) := by
  refine (Tracks.gather _).bind fun data => (Tracks.ofApplying _).bind fun data => ?_
  refine (Tracks.forM fun root hroot => ?_).bind fun _ => .lift (pure _)
  obtain ⟨r, hr, hsource⟩ := List.mem_filterMap.1 hroot
  exact .leave (not_still_of_moves (moves_iff.2 ⟨r, hr, hsource⟩)) _

theorem tracks_applyOrLoad (hs : ¬m.Still p key) :
    m.Tracks p (m.applyOrLoad p key) (m.applyOrLoad p key) := by
  intro tables tables' h
  obtain ⟨hout, hafter⟩ := tracks_applyRules m p key _ _ h
  rw [applyOrLoad_run, applyOrLoad_run]
  cases hrun : (m.applyRules p key).run tables with
  | mk outcome after =>
    cases hrun' : (m.applyRules p key).run tables' with
    | mk outcome' after' =>
      simp only [hrun, hrun'] at hout hafter
      subst hout
      cases outcome with
      | ok v => exact ⟨rfl, hafter.remember hs v⟩
      | error e =>
        cases e with
        | bare cause =>
          cases cause with
          | parameterMissing name => exact ⟨congrFun hafter.loaded key, hafter⟩
          | _ => exact ⟨rfl, hafter⟩
        | _ => exact ⟨rfl, hafter⟩

theorem Still.tracks_migrateWith (hs : m.Still p key) (fuel : Nat) :
    m.Tracks p (m.migrateWith p fuel key) (m.migrateWith p fuel key) := by
  intro tables tables' h
  obtain ⟨after, hrun, hafter⟩ := hs.migrateWith_run h.left fuel
  obtain ⟨after', hrun', hafter'⟩ := hs.migrateWith_run h.right fuel
  rw [hrun, hrun']
  exact ⟨rfl, ((h.of_remembers hs hafter).symm.of_remembers hs hafter').symm⟩

theorem tracks_migrateWith (m : Migration) (p : Properties) (fuel : Nat) (key : String) :
    m.Tracks p (m.migrateWith p fuel key) (m.migrateWith p fuel key) := by
  induction fuel generalizing key with
  | zero =>
    by_cases hs : m.Still p key
    · exact hs.tracks_migrateWith 0
    · exact (Tracks.load key).retrieve hs
  | succ fuel ih =>
    by_cases hs : m.Still p key
    · exact hs.tracks_migrateWith (fuel + 1)
    · refine (Tracks.guarded (.bind (.forM fun other _ => ?_) fun _ => ?_) key).retrieve hs
      · exact (ih other).map _
      · exact tracks_applyOrLoad hs

end Orchestration.Migration
