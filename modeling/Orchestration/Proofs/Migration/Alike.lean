import Mathlib.Data.Finset.Card
import Mathlib.Data.List.Dedup
import Orchestration.Proofs.Migration.ReadOrder

namespace Orchestration.Migration

variable {α β : Type} {m m' : Migration} {p : Properties} {tables : Tables} {key : String}
  {under : List String} {fuel fuel' : Nat}

def Fixes {γ : Type} (part : Tables → γ) (x : Reading α) : Prop :=
  ∀ tables, part (x.run tables).2 = part tables

namespace Fixes

variable {γ : Type} {part : Tables → γ}

theorem lift (r : Result α) : Fixes part (liftM r : Reading α) := fun _ => rfl

theorem bind {x : Reading α} {f : α → Reading β} (hx : Fixes part x) (hf : ∀ a, Fixes part (f a)) :
    Fixes part (x >>= f) := by
  intro tables
  have hfirst := hx tables
  cases hrun : x.run tables with
  | mk outcome mid =>
    rw [hrun] at hfirst
    cases outcome with
    | error e => rwa [Run.bind_error hrun]
    | ok a =>
      rw [Run.bind_ok hrun]
      exact (hf a mid).trans hfirst

theorem map (f : α → β) {x : Reading α} (hx : Fixes part x) : Fixes part (f <$> x) := by
  rw [← bind_pure_comp]
  exact hx.bind fun _ => .lift (pure _)

theorem forM {f : α → Reading Unit} (h : ∀ a, Fixes part (f a)) (as : List α) :
    Fixes part (as.forM f) := by
  induction as with
  | nil => exact lift (pure ())
  | cons a as ih => exact (h a).bind fun _ => ih

theorem foldlM {f : β → α → Reading β} (h : ∀ b a, Fixes part (f b a)) (as : List α) (b : β) :
    Fixes part (as.foldlM f b) := by
  induction as generalizing b with
  | nil => exact lift (pure b)
  | cons a as ih => exact (h b a).bind ih

theorem load (p : Properties) (key : String) : Fixes part (load p key) := by
  intro tables
  rw [load_run]

theorem retrieve {new : Reading (Option Value)} (h : Fixes part new) (key : String) :
    Fixes part (retrieve p key new) := by
  intro tables
  rw [retrieve_run]
  split
  · rfl
  · rfl
  · exact h tables

section

variable {view : PropertyView}
  (h : ∀ m ∈ view.migration, ∀ key, Fixes part (m.migrate view.properties key))

include h

theorem read (key : String) : Fixes part (view.read key) := by
  unfold PropertyView.read
  split
  · exact lift _
  · next m hm =>
    split
    · exact lift (pure none)
    · split
      · exact (h m hm key).bind fun v => lift (pure _)
      · exact lift _

theorem answer (request : PropertyView.Request) : Fixes part (view.answer request) := by
  cases request with
  | property key => exact (read h key).map _
  | all =>
    refine map _ (foldlM (fun found key => ?_) _ _)
    refine (read h key).bind fun v => ?_
    cases v <;> exact lift (pure _)

theorem answers (requests : List PropertyView.Request) (tables : Tables) :
    part ((view.answers requests).run tables).2 = part tables := by
  induction requests generalizing tables with
  | nil => rfl
  | cons request requests ih =>
    rw [PropertyView.answers_cons rfl]
    exact (ih _).trans (answer h request tables)

end

end Fixes

theorem fixes_inProgress_guarded {x : Reading α} (h : Fixes Tables.inProgress x) (key : String) :
    Fixes Tables.inProgress (.guarded key x) := by
  intro tables
  simp [guarded_run, h { tables with inProgress := key :: tables.inProgress }]

theorem applyOrLoad_cases (m : Migration) (p : Properties) (key : String) (tables : Tables) :
    let after := ((applyRules m p key).run tables).2
    (∃ v, (applyOrLoad m p key).run tables =
      (.ok v, { after with cache := after.cache.insert key v })) ∨
    ∃ r, (applyOrLoad m p key).run tables = (r, after) := by
  rw [applyOrLoad_run]
  cases (applyRules m p key).run tables with
  | mk outcome after =>
    cases outcome with
    | ok v => exact .inl ⟨v, rfl⟩
    | error e =>
      cases e with
      | bare cause => cases cause <;> exact .inr ⟨_, rfl⟩
      | _ => exact .inr ⟨_, rfl⟩

theorem Fixes.applyOrLoad {γ : Type} {part : Tables → γ}
    (hcache : ∀ (tables : Tables) cache, part { tables with cache } = part tables)
    (h : Fixes part (m.applyRules p key)) : Fixes part (m.applyOrLoad p key) := by
  intro tables
  obtain ⟨v, hrun⟩ | ⟨r, hrun⟩ := applyOrLoad_cases m p key tables
  · rw [hrun]
    exact (hcache _ _).trans (h tables)
  · rw [hrun]
    exact h tables

theorem fixes_inProgress_applyOrLoad (m : Migration) (p : Properties) (key : String) :
    Fixes Tables.inProgress (applyOrLoad m p key) := by
  refine .applyOrLoad (fun _ _ => rfl) fun tables => ?_
  obtain ⟨after, hrun, -, hprog, -⟩ := @applyRules_run tables m p key
  rw [hrun]
  exact hprog

theorem fixes_inProgress_migrateWith (m : Migration) (p : Properties) (fuel : Nat) (key : String) :
    Fixes Tables.inProgress (migrateWith m p fuel key) := by
  induction fuel generalizing key with
  | zero => exact (Fixes.load p key).retrieve key
  | succ fuel ih =>
    refine (fixes_inProgress_guarded (.bind (.forM (fun other => ?_) _) fun _ => ?_) key).retrieve key
    · exact (ih other).map _
    · exact fixes_inProgress_applyOrLoad m p key

def waiting (m : Migration) (under : List String) : Finset String :=
  (m.rules.map Rule.property).toFinset \ under.toFinset

theorem card_waiting_le (m : Migration) (under : List String) :
    (m.waiting under).card ≤ m.rules.length :=
  calc (m.waiting under).card
    _ ≤ (m.rules.map Rule.property).toFinset.card := Finset.card_le_card Finset.sdiff_subset
    _ ≤ (m.rules.map Rule.property).length := List.toFinset_card_le _
    _ = m.rules.length := List.length_map _

theorem waiting_cons (m : Migration) (under : List String) (key : String) :
    m.waiting (key :: under) = (m.waiting under).erase key := by
  ext other
  simp only [waiting, Finset.mem_sdiff, Finset.mem_erase, List.mem_toFinset, List.mem_cons, not_or]
  tauto

theorem card_waiting_cons_le (m : Migration) (under : List String) (key : String) :
    (m.waiting (key :: under)).card ≤ (m.waiting under).card := by
  rw [waiting_cons]
  exact Finset.card_erase_le

theorem card_waiting_cons_lt {under : List String} {key : String}
    (hrule : key ∈ m.rules.map Rule.property) (hkey : key ∉ under) :
    (m.waiting (key :: under)).card < (m.waiting under).card := by
  rw [waiting_cons]
  refine Finset.card_erase_lt_of_mem ?_
  simp [waiting, hkey, List.mem_map.1 hrule]

theorem property_of_mem_movedFrom {key other : String} (h : other ∈ m.movedFrom key) :
    other ∈ m.rules.map Rule.property := by
  obtain ⟨r, hr, rfl⟩ := List.mem_map.1 h
  exact List.mem_map_of_mem (List.mem_filter.1 hr).1

/-- Fuel that is enough to migrate a property while others are being migrated. -/
def Covers (m : Migration) (under : List String) (key : String) (fuel : Nat) : Prop :=
  (m.waiting under).card < fuel ∨
    key ∈ m.rules.map Rule.property ∧ (m.waiting under).card ≤ fuel

theorem covers_of_length_lt (h : m.rules.length < fuel) (under : List String) (key : String) :
    m.Covers under key fuel := .inl ((card_waiting_le m under).trans_lt h)

theorem covers_of_movedFrom {other : String} (h : (m.waiting under).card ≤ fuel)
    (hother : other ∈ m.movedFrom key) : m.Covers under other fuel :=
  .inr ⟨property_of_mem_movedFrom hother, h⟩

theorem Covers.exists_rest (h : m.Covers under key fuel) (hkey : key ∉ under) :
    ∃ rest, fuel = rest + 1 ∧ (m.waiting (key :: under)).card ≤ rest := by
  have hle := card_waiting_cons_le m under key
  obtain hlt | ⟨hrule, hcard⟩ := h
  · exact ⟨fuel - 1, by omega, by omega⟩
  · have hlt := card_waiting_cons_lt hrule hkey
    exact ⟨fuel - 1, by omega, by omega⟩

theorem discard_run (x : Reading α) :
    (discard x).run tables = (discard (x.run tables).1, (x.run tables).2) := Run.map_run _

theorem forM_run_congr {f g : α → Reading Unit} {as : List α} (hf : ∀ a, Fixes Tables.inProgress (f a))
    (h : ∀ a ∈ as, ∀ before : Tables, before.inProgress = under →
      (f a).run before = (g a).run before) (hu : tables.inProgress = under) :
    (as.forM f).run tables = (as.forM g).run tables := by
  induction as generalizing tables with
  | nil => rfl
  | cons a as ih =>
    have hfirst := h a (List.mem_cons_self ..) tables hu
    have hmid := hf a tables
    change (f a >>= fun _ => as.forM f).run tables = (g a >>= fun _ => as.forM g).run tables
    cases hrun : (f a).run tables with
    | mk outcome mid =>
      rw [hrun] at hfirst hmid
      cases outcome with
      | error e => rw [Run.bind_error hrun, Run.bind_error hfirst.symm]
      | ok u =>
        rw [Run.bind_ok hrun, Run.bind_ok hfirst.symm]
        exact ih (fun b hb => h b (List.mem_cons_of_mem a hb)) (hmid.trans hu)

theorem retrieve_run_of_mem (h : key ∈ tables.inProgress) (new new' : Reading (Option Value)) :
    (retrieve p key new).run tables = (retrieve p key new').run tables := by
  rw [retrieve_run, retrieve_run, List.contains_iff_mem.2 h]
  cases tables.cache.get? key <;> rfl

theorem exists_retrieve (m : Migration) (p : Properties) (fuel : Nat) (key : String) :
    ∃ new, migrateWith m p fuel key = retrieve p key new := by
  cases fuel <;> exact ⟨_, rfl⟩

/-- As long as there is enough fuel, it does not show how much there is. -/
theorem migrateWith_run_eq (h : m.Covers tables.inProgress key fuel)
    (h' : m.Covers tables.inProgress key fuel') :
    (migrateWith m p fuel key).run tables = (migrateWith m p fuel' key).run tables := by
  induction fuel generalizing fuel' key tables with
  | zero =>
    by_cases hkey : key ∈ tables.inProgress
    · obtain ⟨new, hnew⟩ := exists_retrieve m p fuel' key
      rw [hnew]
      exact retrieve_run_of_mem hkey _ _
    · obtain ⟨rest, hrest, -⟩ := h.exists_rest hkey
      cases hrest
  | succ fuel ih =>
    by_cases hkey : key ∈ tables.inProgress
    · obtain ⟨new, hnew⟩ := exists_retrieve m p fuel' key
      rw [hnew]
      exact retrieve_run_of_mem hkey _ _
    · obtain ⟨_, hrest, hcard⟩ := h.exists_rest hkey
      cases hrest
      obtain ⟨rest', rfl, hcard'⟩ := h'.exists_rest hkey
      -- one property more is being migrated, so one unit of fuel less covers the others
      have hmovers : ((m.movedFrom key).forM fun other => discard (migrateWith m p fuel other)).run
          { tables with inProgress := key :: tables.inProgress } =
          ((m.movedFrom key).forM fun other => discard (migrateWith m p rest' other)).run
            { tables with inProgress := key :: tables.inProgress } := by
        refine forM_run_congr (fun other => ?_) (fun other hother before hbefore => ?_) rfl
        · exact (fixes_inProgress_migrateWith m p fuel other).map _
        · have hone := @ih before other rest' (hbefore ▸ covers_of_movedFrom hcard hother)
            (hbefore ▸ covers_of_movedFrom hcard' hother)
          rw [discard_run, hone, discard_run]
      cases hcache : tables.cache.get? key with
      | some v =>
        have hrun := @retrieve_run tables p key
        rw [hcache] at hrun
        exact (hrun _).trans (hrun _).symm
      | none =>
        have hrun := @retrieve_run tables p key
        rw [hcache, show tables.inProgress.contains key = false by simpa using hkey] at hrun
        refine (hrun _).trans (.trans ?_ (hrun _).symm)
        rw [guarded_run, guarded_run, Run.bind_run_congr hmovers]

theorem migrate_run_of_new (hcache : tables.cache.get? key = none) (hkey : key ∉ tables.inProgress) :
    (migrate m p key).run tables = (Reading.guarded key do
      (m.movedFrom key).forM fun other => discard (migrate m p other)
      applyOrLoad m p key).run tables := by
  -- one unit of fuel more, so that the properties before it have as much as `migrate` gives them
  have hfuel : (migrate m p key).run tables = (migrateWith m p (m.rules.length + 2) key).run tables :=
    migrateWith_run_eq (covers_of_length_lt (by omega) _ _) (covers_of_length_lt (by omega) _ _)
  rw [hfuel, migrateWith, retrieve_run, hcache,
    show tables.inProgress.contains key = false by simpa using hkey]
  rfl

/-- Migrations that wait for the same properties and whose rules do the same. -/
structure Alike (m m' : Migration) (p : Properties) : Prop where
  movedFrom : ∀ key, m.movedFrom key = m'.movedFrom key
  applyRules : ∀ key, m.applyRules p key = m'.applyRules p key

namespace Alike

theorem migrateWith (h : m.Alike m' p) (fuel : Nat) (key : String) :
    m.migrateWith p fuel key = m'.migrateWith p fuel key := by
  induction fuel generalizing key with
  | zero => rfl
  | succ fuel ih =>
    have hmovers : (fun other => discard (m.migrateWith p fuel other)) =
        fun other => discard (m'.migrateWith p fuel other) :=
      funext fun other => by rw [ih other]
    unfold Migration.migrateWith Migration.applyOrLoad
    rw [h.movedFrom, h.applyRules, hmovers]

theorem migrate (h : m.Alike m' p) (key : String) : m.migrate p key = m'.migrate p key := by
  funext tables
  -- enough fuel for both, however many rules each of them has
  let fuel := m.rules.length + m'.rules.length + 1
  calc (m.migrate p key).run tables
    _ = (m.migrateWith p fuel key).run tables := migrateWith_run_eq
      (covers_of_length_lt (by omega) _ _) (covers_of_length_lt (by omega) _ _)
    _ = (m'.migrateWith p fuel key).run tables := by rw [h.migrateWith]
    _ = (m'.migrate p key).run tables := migrateWith_run_eq
      (covers_of_length_lt (by omega) _ _) (covers_of_length_lt (by omega) _ _)

theorem answers_eq (h : m.Alike m' p) (hmasks : ∀ key, m.masks key = m'.masks key)
    (haffects : ∀ key, m.affects key = m'.affects key) (htargets : m.targets = m'.targets)
    (requests : List PropertyView.Request) :
    (PropertyView.mk p (some m)).answers requests =
      (PropertyView.mk p (some m')).answers requests := by
  have hread : (PropertyView.mk p (some m)).read = (PropertyView.mk p (some m')).read := by
    funext key
    simp only [PropertyView.read, hmasks, haffects, h.migrate]
  have hkeys : (PropertyView.mk p (some m)).keys = (PropertyView.mk p (some m')).keys := by
    simp only [PropertyView.keys, Option.map_some, htargets]
  have hanswer : (PropertyView.mk p (some m)).answer = (PropertyView.mk p (some m')).answer := by
    funext request
    cases request with
    | property key => rw [PropertyView.answer, PropertyView.answer, hread]
    | all =>
      rw [PropertyView.answer, PropertyView.answer, PropertyView.readAll, PropertyView.readAll,
        PropertyView.collect, PropertyView.collect, hkeys, hread]
  rw [PropertyView.answers, PropertyView.answers, hanswer]

end Alike

end Orchestration.Migration
