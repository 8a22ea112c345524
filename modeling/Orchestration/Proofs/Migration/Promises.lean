import Orchestration.Proofs.Contracts
import Orchestration.Proofs.Migration.Alike

/-!
What migrations promise about the values of properties. Main statement: what the rules of every
property make true of its value is true of it whenever it is read, whatever was read before.
-/

namespace Orchestration

namespace Migration

/-- What is true of the values of properties, and how reading them may fail. -/
structure Promise where
  fails : Error → Prop
  /-- True of what is left of a property, while no rules of its own were run. -/
  loaded : String → Value → Prop
  migrated : String → Value → Prop

/-- The rules of each property make the promise true of its value, from what is true of the
properties that they are run on. -/
structure Promise.Fulfilled (c : Promise) (m : Migration) (p : Properties) : Prop where
  written : ∀ key, Result.Meets c.fails (fun v => ∀ w ∈ v, c.loaded key w) (p.value key)
  carried : ∀ value : String → Result (Option Value),
    (∀ key, Result.Meets c.fails (fun v => ∀ w ∈ v, c.loaded key w) (value key)) →
      ∀ key, Result.Meets c.fails (fun last => (∀ v ∈ last.1.get? key, c.migrated key v) ∧
        ∀ root ∈ (m.rulesFor key).filterMap Rule.nestedSource?, ∀ v ∈ last.1.get? root,
          c.loaded root v) (m.carryOut value key)
  unruled : ∀ name, c.fails (.bare (.parameterMissing name)) →
    ∀ key v, c.loaded key v → c.migrated key v

structure Promise.Among (c : Promise) (p : Properties) (tables : Tables) : Prop where
  cached : ∀ key v, tables.cache.get? key = some (some v) → c.migrated key v
  loaded : ∀ key,
    Result.Meets c.fails (fun v => ∀ w ∈ v, c.loaded key w) (Migration.loaded p tables key)

section

variable {m : Migration} {E : Error → Prop} {value : String → Result (Option Value)} {key : String}

theorem gather_meets {Q : String → Value → Prop}
    (h : ∀ key, Result.Meets E (fun v => ∀ w ∈ v, Q key w) (value key)) (keys : List String) :
    Result.Meets E (fun data => data.keys.Nodup ∧ ∀ key v, data.get? key = some v → Q key v)
      (gather value keys) := by
  cases hgather : gather value keys with
  | ok data =>
    obtain ⟨hdata, -⟩ := foldlM_gatherOne_ok collected_nil hgather
    refine .ok ⟨hdata.nodup, fun key v hv => ?_⟩
    have hkey := h key
    rw [hdata.value hv] at hkey
    exact hkey.of_ok v rfl
  | error e =>
    obtain ⟨key, hkey⟩ := gather_error hgather
    have hfails := h key
    rw [hkey] at hfails
    exact .error hfails.of_error

theorem carryOut_meets {D P : Fields Value → Prop}
    (hgather : Result.Meets E D (gather value (m.inputs key)))
    (hrun : ∀ data, D data → Run.Meets (fun _ => True) E P
      ((m.rulesFor key).foldlM (fun data r => r.apply m.clientResolve data) data)) :
    Result.Meets E (fun last => P last.1) (m.carryOut value key) := by
  refine Result.Meets.map_iff.1 ?_
  rw [fst_carryOut]
  exact hgather.bind fun data hdata => (hrun data hdata [] trivial).1

end

namespace Promise

variable {c : Promise} {m : Migration} {p : Properties} {key : String} {tables after : Tables}

theorem Among.congr (h : c.Among p tables) (hcache : after.cache = tables.cache)
    (hloaded : ∀ key, Migration.loaded p after key = Migration.loaded p tables key) :
    c.Among p after :=
  ⟨fun key => hcache ▸ h.cached key, fun key => hloaded key ▸ h.loaded key⟩

theorem load_meets (key : String) : Run.Meets (c.Among p) c.fails (fun v => ∀ w ∈ v, c.loaded key w)
    (load p key) := by
  intro tables ht
  rw [load_run]
  exact ⟨ht.loaded key, ht⟩

theorem retrieve_meets {P : Option Value → Prop} {new : Reading (Option Value)}
    (hcached : ∀ v : Option Value, (∀ w ∈ v, c.migrated key w) → P v)
    (hnew : Run.Meets (c.Among p) c.fails P new) (ht : c.Among p tables) :
    Result.Meets c.fails (fun v => key ∉ tables.inProgress → P v)
        ((retrieve p key new).run tables).1 ∧ c.Among p ((retrieve p key new).run tables).2 := by
  rw [retrieve_run]
  cases hcache : tables.cache.get? key with
  | some v => exact ⟨.ok fun _ => hcached v fun w hw => ht.cached key w (by rw [hcache, hw]), ht⟩
  | none =>
    cases hkey : tables.inProgress.contains key with
    | true =>
      refine ⟨(ht.loaded key).imp fun v _ hnot => ?_, ht⟩
      exact absurd (List.contains_iff_mem.1 hkey) hnot
    | false =>
      obtain ⟨hresult, hafter⟩ := hnew tables ht
      exact ⟨hresult.imp fun v hv _ => hv, hafter⟩

theorem guarded_meets {P : Option Value → Prop} {x : Reading (Option Value)}
    (hx : Run.Meets (c.Among p) c.fails P x) (key : String) :
    Run.Meets (c.Among p) c.fails P (Reading.guarded key x) := by
  intro tables ht
  obtain ⟨hresult, hafter⟩ := hx { tables with inProgress := key :: tables.inProgress }
    (ht.congr rfl fun _ => rfl)
  exact ⟨hresult, hafter.congr rfl fun _ => rfl⟩

namespace Fulfilled

variable (h : c.Fulfilled m p)

include h

theorem among_empty : c.Among p .empty := ⟨nofun, h.written⟩

theorem applyRules_meets (key : String) :
    Run.Meets (c.Among p) c.fails (fun v => ∀ w ∈ v, c.migrated key w) (applyRules m p key) := by
  intro tables ht
  obtain ⟨after, hrun, hcache, -, hloaded⟩ := @applyRules_run tables m p key
  have hcarried := h.carried _ ht.loaded key
  rw [hrun]
  generalize m.carryOut (Migration.loaded p tables) key = outcome at hcarried hloaded
  cases hcarried with
  | error he => exact ⟨.error he, ht.congr hcache hloaded⟩
  | @ok last hlast =>
    refine ⟨.ok hlast.1, fun key => hcache ▸ ht.cached key, fun root => ?_⟩
    rw [hloaded root]
    dsimp only
    split
    · next hroot => exact .ok (hlast.2 root hroot)
    · exact ht.loaded root

theorem applyOrLoad_meets (key : String) :
    Run.Meets (c.Among p) c.fails (fun v => ∀ w ∈ v, c.migrated key w) (applyOrLoad m p key) := by
  intro tables ht
  obtain ⟨hresult, hafter⟩ := h.applyRules_meets key tables ht
  rw [applyOrLoad_run]
  generalize (applyRules m p key).run tables = outcome at hresult hafter
  obtain ⟨result, after⟩ := outcome
  cases hresult with
  | @ok v hv =>
    refine ⟨.ok hv, fun other w hw => ?_, hafter.loaded⟩
    rw [Fields.get?_insert] at hw
    split at hw
    · next hkey => exact hkey ▸ hv w (Option.some.inj hw)
    · exact hafter.cached other w hw
  | @error e he =>
    split
    · next hr => cases hr
    · next hr =>
      cases hr
      -- the rules were not run for want of a parameter, and what is loaded is given instead
      exact ⟨(hafter.loaded key).imp fun v hv w hw => h.unruled _ he key w (hv w hw), hafter⟩
    · next hr =>
      cases hr
      exact ⟨.error he, hafter⟩

theorem new_meets {fuel : Nat}
    (hmovers : ∀ other, Run.Meets (c.Among p) c.fails (fun _ => True) (migrateWith m p fuel other))
    (key : String) : Run.Meets (c.Among p) c.fails (fun v => ∀ w ∈ v, c.migrated key w)
      (Reading.guarded key do
        (m.movedFrom key).forM fun other => discard (migrateWith m p fuel other)
        applyOrLoad m p key) := by
  refine guarded_meets (Run.Meets.bind (.forM fun other _ => ?_) fun _ _ =>
    h.applyOrLoad_meets key) key
  exact (hmovers other).map

theorem migrateWith_meets (fuel : Nat) (key : String) :
    Run.Meets (c.Among p) c.fails (fun _ => True) (migrateWith m p fuel key) := by
  have hretrieve (key : String) {new : Reading (Option Value)}
      (hnew : Run.Meets (c.Among p) c.fails (fun _ => True) new) :
      Run.Meets (c.Among p) c.fails (fun _ => True) (retrieve p key new) := by
    intro tables ht
    obtain ⟨hresult, hafter⟩ := retrieve_meets (fun _ _ => trivial) hnew ht
    exact ⟨hresult.imp fun _ _ => trivial, hafter⟩
  induction fuel generalizing key with
  | zero => exact hretrieve key ((load_meets key).imp fun _ _ => trivial)
  | succ fuel ih =>
    have hmovers (other : String) := ih other
    exact hretrieve key ((h.new_meets hmovers key).imp fun _ _ => trivial)

end Fulfilled

structure Between (c : Promise) (p : Properties) (tables : Tables) : Prop where
  among : c.Among p tables
  inProgress : tables.inProgress = []

theorem Fulfilled.migrate_meets (h : c.Fulfilled m p) (key : String) :
    Run.Meets (c.Between p) c.fails (fun v => ∀ w ∈ v, c.migrated key w) (migrate m p key) := by
  intro tables ht
  obtain ⟨hresult, hafter⟩ :=
    retrieve_meets (fun _ hv => hv) (h.new_meets (h.migrateWith_meets _) key) ht.among
  refine ⟨hresult.imp fun v hv => hv (ht.inProgress ▸ List.not_mem_nil), hafter, ?_⟩
  exact (fixes_inProgress_migrateWith m p _ key tables).trans ht.inProgress

end Promise

end Migration

namespace PropertyView

open Migration (Promise)

variable {p : Properties} {m : Migration} {c : Promise} (h : c.Fulfilled m p)

include h

theorem read_meets (key : String) : Run.Meets (c.Between p) c.fails
    (fun v => ∀ w ∈ v, if m.affects key then c.migrated key w else c.loaded key w)
    ((PropertyView.mk p (some m)).read key) := by
  unfold read
  cases hmasks : m.masks key with
  | true =>
    simp only [hmasks, ↓reduceIte]
    exact .pure nofun
  | false =>
    cases haffects : m.affects key with
    | true =>
      simp only [hmasks, haffects, Bool.false_eq_true, ↓reduceIte]
      refine (h.migrate_meets key).bind fun v hv => .pure fun w hw => hv w ?_
      exact (Option.filter_eq_some_iff.1 hw).1
    | false =>
      simp only [hmasks, haffects, Bool.false_eq_true, ↓reduceIte]
      exact .lift (h.written key)

theorem answer_meets (request : Request) : Run.Meets (c.Between p) c.fails (fun _ => True)
    ((PropertyView.mk p (some m)).answer request) := by
  cases request with
  | property key => exact .map ((read_meets h key).imp fun _ _ => trivial)
  | all =>
    refine .map (.foldlM (Q := fun _ => True) (fun found _ key _ => ?_) trivial)
    refine (read_meets h key).bind fun v _ => ?_
    cases v <;> exact .pure trivial

theorem between_answers (earlier : List Request) :
    c.Between p (((PropertyView.mk p (some m)).answers earlier).run .empty).2 := by
  suffices hall : ∀ tables, c.Between p tables →
      c.Between p (((PropertyView.mk p (some m)).answers earlier).run tables).2 from
    hall .empty ⟨h.among_empty, rfl⟩
  induction earlier with
  | nil => exact fun _ ht => ht
  | cons request earlier ih =>
    intro tables ht
    rw [answers_cons rfl]
    exact ih _ (answer_meets h request tables ht).2

/-- Whatever was read before, the value of a property is as promised. -/
theorem read_of_fulfilled (earlier : List Request) (key : String) : Result.Meets c.fails
    (fun v => ∀ w ∈ v, if m.affects key then c.migrated key w else c.loaded key w)
    (((PropertyView.mk p (some m)).read key).run
      (((PropertyView.mk p (some m)).answers earlier).run .empty).2).1 :=
  (read_meets h key _ (between_answers h earlier)).1

end PropertyView

end Orchestration
