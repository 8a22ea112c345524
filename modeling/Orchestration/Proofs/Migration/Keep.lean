import Orchestration.Proofs.Migration.Migrate
import Orchestration.Proofs.Migration.Move

namespace Orchestration.Migration

variable (m : Migration) (p : Properties)

def written (key : String) : Option Value := (p.value key).toOption.join

def left (tables : Tables) (key : String) : Option Value := (loaded p tables key).toOption.join

namespace Rule

variable (r : Rule)

/-- The value of a source is remembered at a target. -/
def Moved (tables : Tables) (a : Spot) (v : Value) : Prop :=
  ∃ b, r.Moves a b ∧
    ∃ c, tables.cache.get? r.property = some c ∧ b.seen (fun _ => c) = some v

structure Stays (tables : Tables) (a : Spot) (v : Value) : Prop where
  left : a.seen (left p tables) = some v
  cached : ∀ c, tables.cache.get? a.root = some c → a.seen (fun _ => c) = some v
  whole : (tables.cache.get? r.property).isSome → r.movedProperty? = none

/-- Where a rule moves a whole property, there is a map to put it in. -/
def Lands : Prop :=
  r.movedProperty?.isSome → ∃ x, Leads r.way x ∧ ((Spot.field x r.field).probe (written p)).isSome

variable {r} {a b : Spot} {place : Place} {key : String}

theorem root_field {x : Breadcrumb} (h : Leads r.way x) :
    (Spot.field x r.field).root = r.property := by
  cases hw : r.way with
  | nil =>
    rw [hw] at h
    cases h
    exact r.field_eq_property hw
  | cons k way =>
    rw [hw] at h
    cases h <;> exact r.property_of_way_cons hw

theorem Moves.root (h : r.Moves a b) : b.root = r.property := by
  cases h with
  | sibling _ hl => exact root_field hl
  | top _ hl => exact root_field hl

theorem way_of_path_length (h : r.path.length = 1) : r.way = [] := by
  have hl : (canonical r.path).length ≤ 1 := h ▸ List.length_filter_le _ _
  rw [way, ← List.length_eq_zero_iff, List.length_dropLast]
  omega

theorem From.of_movedProperty? (h : r.movedProperty? = some key) (ha : r.From a) :
    a.root = key ∧ r.input? = some key := by
  cases ha with
  | @sibling name x hr hl =>
    have hp : r.path.length = 1 ∧ name = key := by simpa [movedProperty?, hr] using h
    rw [way_of_path_length hp.1] at hl
    cases hl
    exact ⟨hp.2, by simp [input?, hr, hp]⟩
  | @top path hr =>
    match path with
    | [] => simp [movedProperty?, hr] at h
    | [name] =>
      have hn : name = key := by simpa [movedProperty?, hr] using h
      exact ⟨hn, by simp [input?, hr, hn]⟩
    | _ :: _ :: _ => simp [movedProperty?, hr] at h

end Rule

/-- The value of each source of a rule is moved by it, or it stays where it is. -/
structure Kept (tables : Tables) : Prop where
  targets : ∀ r ∈ m.rules, ∀ x, Leads r.way x →
    (Spot.field x r.field).probe (left p tables) = (Spot.field x r.field).probe (written p)
  sources : ∀ r ∈ m.rules, r.Lands p → ∀ a v, r.From a → a.seen (written p) = some v →
    v.isNull = false → r.Moved tables a v ∨ r.Stays p tables a v

structure Noted (key : String) (tables after : Tables) (data last : Fields Value) : Prop where
  run : ∃ taken asked, (Rule.applyAll m.clientResolve (m.rulesFor key) data).run [] =
    (.ok (last, taken), asked)
  data : ∀ root ∈ m.inputs key, data.get? root = left p tables root
  cache : after.cache = tables.cache.insert key (last.get? key)
  left : ∀ root, left p after root =
    if root ∈ (m.rulesFor key).filterMap Rule.nestedSource? then last.get? root
    else left p tables root

variable {m p} {tables after : Tables} {key : String} {data last : Fields Value} {r : Rule}
  {spot : Spot} {place : Place}

theorem orderly_rulesFor (h : Rule.Orderly m.rules) (key : String) :
    Rule.Orderly (m.rulesFor key) := by
  refine ⟨fun r hr => h.moves r (mem_rulesFor.1 hr).1, fun r hr =>
    h.straight r (mem_rulesFor.1 hr).1, ?_⟩
  exact ((List.mergeSort_perm _ _).pairwise_iff Rule.Separate.symm).2 (h.separate.filter _)

theorem mem_inputs_of_nestedSource? {root : String}
    (h : root ∈ (m.rulesFor key).filterMap Rule.nestedSource?) : root ∈ m.inputs key := by
  obtain ⟨r, hr, hs⟩ := List.mem_filterMap.1 h
  exact mem_inputs_of_moves (moves_iff.2 ⟨r, hr, hs⟩)

theorem ne_of_mem_nestedSources {root : String}
    (h : root ∈ (m.rulesFor key).filterMap Rule.nestedSource?) : key ≠ root := by
  obtain ⟨r, hr, hs⟩ := List.mem_filterMap.1 h
  exact ne_of_moves (moves_iff.2 ⟨r, hr, hs⟩)

namespace Noted

theorem probe_data (h : Noted m p key tables after data last) (hr : spot.root ∈ m.inputs key) :
    spot.probe data.get? = spot.probe (Migration.left p tables) :=
  Spot.probe_congr (h.data _ hr)

theorem probe_cached (hr : spot.root = key) :
    spot.probe (fun _ => last.get? key) = spot.probe last.get? :=
  Spot.probe_congr (by rw [hr])

theorem probe_last (h : Noted m p key tables after data last) (ho : Rule.Orderly m.rules)
    (hr : r ∈ m.rules) (hk : r.property ≠ key) (hin : spot.In place) (hp : place ∈ r.places)
    (hroot : spot.root ∈ m.inputs key) :
    spot.probe last.get? = spot.probe (Migration.left p tables) := by
  obtain ⟨taken, asked, hrun⟩ := h.run
  rw [← h.probe_data hroot]
  refine Rule.applyAll_probe (orderly_rulesFor ho key).moves hrun hin fun s hs c hc => ?_
  obtain ⟨hs, hsk⟩ := mem_rulesFor.1 hs
  refine (ho.separate_of_ne hs hr ?_) c hc place hp
  rintro rfl
  exact hk hsk

theorem probe_left_of_mem (h : Noted m p key tables after data last)
    (hm : spot.root ∈ (m.rulesFor key).filterMap Rule.nestedSource?) :
    spot.probe (Migration.left p after) = spot.probe last.get? :=
  Spot.probe_congr ((h.left _).trans (if_pos hm))

theorem probe_left_of_not_mem (h : Noted m p key tables after data last)
    (hm : spot.root ∉ (m.rulesFor key).filterMap Rule.nestedSource?) :
    spot.probe (Migration.left p after) = spot.probe (Migration.left p tables) :=
  Spot.probe_congr ((h.left _).trans (if_neg hm))

theorem probe_left (h : Noted m p key tables after data last) (ho : Rule.Orderly m.rules)
    (hr : r ∈ m.rules) (hk : r.property ≠ key) (hin : spot.In place) (hp : place ∈ r.places) :
    spot.probe (Migration.left p after) = spot.probe (Migration.left p tables) := by
  by_cases hroot : spot.root ∈ (m.rulesFor key).filterMap Rule.nestedSource?
  · rw [h.probe_left_of_mem hroot]
    exact h.probe_last ho hr hk hin hp (mem_inputs_of_nestedSource? hroot)
  · exact h.probe_left_of_not_mem hroot

theorem probe_left_self (h : Noted m p key tables after data last) (hr : spot.root = key) :
    spot.probe (Migration.left p after) = spot.probe (Migration.left p tables) := by
  apply h.probe_left_of_not_mem
  intro hm
  exact ne_of_mem_nestedSources hm hr.symm

theorem cached_of_ne (h : Noted m p key tables after data last) {other : String} (hk : key ≠ other) :
    after.cache.get? other = tables.cache.get? other := by
  rw [h.cache, Fields.get?_insert, if_neg hk]

theorem cached_self (h : Noted m p key tables after data last) :
    after.cache.get? key = some (last.get? key) := by
  rw [h.cache, Fields.get?_insert, if_pos rfl]

variable {a : Spot} {v : Value}

theorem stays (h : Noted m p key tables after data last) (ho : Rule.Orderly m.rules)
    (hr : r ∈ m.rules) (hk : r.property ≠ key) (ha : r.From a) (hs : r.Stays p tables a v) :
    r.Stays p after a v := by
  obtain ⟨place, hp, hin⟩ := ha.exists_place
  have hp : place ∈ r.places := List.mem_cons_of_mem _ (Option.mem_toList.2 hp)
  constructor
  · rw [Spot.seen, h.probe_left ho hr hk hin hp]
    exact hs.left
  · intro c hc
    by_cases hroot : key = a.root
    · rw [← hroot, h.cached_self] at hc
      cases hc
      rw [Spot.seen, probe_cached hroot.symm,
        h.probe_last ho hr hk hin hp (hroot ▸ List.mem_cons_self)]
      exact hs.left
    · rw [h.cached_of_ne hroot] at hc
      exact hs.cached c hc
  · rw [h.cached_of_ne hk.symm]
    exact hs.whole

theorem stays_of_not_mem_inputs (h : Noted m p key tables after data last)
    (hr : r ∈ m.rulesFor key) (ha : r.From a) (hroot : a.root ∉ m.inputs key)
    (hs : r.Stays p tables a v) : r.Stays p after a v := by
  constructor
  · rw [Spot.seen, h.probe_left_of_not_mem fun hm => hroot (mem_inputs_of_nestedSource? hm)]
    exact hs.left
  · intro c hc
    rw [h.cached_of_ne (fun hk => hroot (by simp [inputs, hk]))] at hc
    exact hs.cached c hc
  · intro _
    cases hw : r.movedProperty? with
    | none => rfl
    | some name =>
      obtain ⟨hname, hi⟩ := ha.of_movedProperty? hw
      refine absurd ?_ hroot
      rw [hname]
      exact List.mem_cons_of_mem _ (List.mem_filterMap.2 ⟨r, hr, hi⟩)

theorem moved_or_stays (h : Noted m p key tables after data last) (ho : Rule.Orderly m.rules)
    (hs : Kept m p tables) (hl : r.Lands p) (hr : r ∈ m.rulesFor key) (ha : r.From a)
    (hn : v.isNull = false) (hv : r.Stays p tables a v) :
    r.Moved after a v ∨ r.Stays p after a v := by
  by_cases hroot : a.root ∈ m.inputs key
  · obtain ⟨taken, asked, hrun⟩ := h.run
    obtain ⟨hmem, hkey⟩ := mem_rulesFor.1 hr
    have hdata : a.seen data.get? = some v := by
      rw [Spot.seen, h.probe_data hroot]
      exact hv.left
    obtain ⟨b, hb, hbv⟩ | ⟨hav, hnone⟩ :=
      Rule.applyAll_from (orderly_rulesFor ho key) hr ha hrun hdata hn
    · refine .inl ⟨b, hb, last.get? key, hkey ▸ h.cached_self, ?_⟩
      rw [Spot.seen, probe_cached (hb.root.trans hkey)]
      exact hbv
    · refine .inr ⟨?_, fun c hc => ?_, fun _ => ?_⟩
      · by_cases hm : a.root ∈ (m.rulesFor key).filterMap Rule.nestedSource?
        · rw [Spot.seen, h.probe_left_of_mem hm]
          exact hav
        · rw [Spot.seen, h.probe_left_of_not_mem hm]
          exact hv.left
      · by_cases hk : key = a.root
        · rw [← hk, h.cached_self] at hc
          cases hc
          rw [Spot.seen, probe_cached hk.symm]
          exact hav
        · rw [h.cached_of_ne hk] at hc
          exact hv.cached c hc
      · -- a property that is moved as a whole has a map to go to, so it would have been moved
        by_contra hw
        obtain ⟨x, hx, hsome⟩ := hl (Option.isSome_iff_ne_none.2 hw)
        have hxr : (Spot.field x r.field).root = key := (Rule.root_field hx).trans hkey
        rw [← hs.targets r hmem x hx, ← h.probe_data (by simp [hxr, inputs]), hnone x hx] at hsome
        cases hsome
  · exact .inr (h.stays_of_not_mem_inputs hr ha hroot hv)

theorem kept (h : Noted m p key tables after data last) (ho : Rule.Orderly m.rules)
    (hk : tables.cache.get? key = none) (hs : Kept m p tables) : Kept m p after := by
  constructor
  · intro r hr x hx
    rw [← hs.targets r hr x hx]
    by_cases hrk : r.property = key
    · exact h.probe_left_self ((Rule.root_field hx).trans hrk)
    · exact h.probe_left ho hr hrk (.field r.field hx) (by simp [Rule.places, Rule.targetPlace])
  · intro r hr hl a v ha hv hn
    obtain ⟨b, hb, c, hc, hbv⟩ | hstay := hs.sources r hr hl a v ha hv hn
    · -- what is at a target already is remembered of another property than this one
      have hrk : key ≠ r.property := by
        rintro rfl
        rw [hk] at hc
        cases hc
      exact .inl ⟨b, hb, c, (h.cached_of_ne hrk).trans hc, hbv⟩
    · by_cases hrk : r.property = key
      · exact h.moved_or_stays ho hs hl (mem_rulesFor.2 ⟨hr, hrk⟩) ha hn hstay
      · exact .inr (h.stays ho hr hrk ha hstay)

end Noted

theorem Kept.congr (h : Kept m p tables) (hc : after.cache = tables.cache)
    (hl : left p after = left p tables) : Kept m p after := by
  constructor
  · rw [hl]
    exact h.targets
  · intro r hr hlands a v ha hv hn
    obtain ⟨b, hb, hm⟩ | hs := h.sources r hr hlands a v ha hv hn
    · exact .inl ⟨b, hb, hc ▸ hm⟩
    · exact .inr ⟨hl ▸ hs.left, hc ▸ hs.cached, hc ▸ hs.whole⟩

/-- What a step does to tables: it keeps the values of sources, and changes nothing that is
remembered and nothing about properties that are being migrated. -/
structure Keeps (m : Migration) (p : Properties) (tables after : Tables) : Prop where
  kept : Kept m p tables → Kept m p after
  inProgress : after.inProgress = tables.inProgress
  cache : ∀ key, key ∈ tables.inProgress ∨ (tables.cache.get? key).isSome →
    after.cache.get? key = tables.cache.get? key

namespace Keeps

variable {first second third : Tables}

theorem refl (tables : Tables) : Keeps m p tables tables := ⟨id, rfl, fun _ _ => rfl⟩

theorem trans (h : Keeps m p first second) (h' : Keeps m p second third) : Keeps m p first third := by
  refine ⟨h'.kept ∘ h.kept, h'.inProgress.trans h.inProgress, fun key hk => ?_⟩
  have hmid := h.cache key hk
  rw [← hmid]
  refine h'.cache key ?_
  rw [h.inProgress, hmid]
  exact hk

end Keeps

def Keeping (m : Migration) (p : Properties) {α : Type} (x : Reading α) : Prop :=
  ∀ tables, Keeps m p tables (x.run tables).2

namespace Keeping

variable {α β : Type}

theorem lift (r : Result α) : Keeping m p (liftM r : Reading α) := fun tables => .refl tables

theorem bind {x : Reading α} {f : α → Reading β} (hx : Keeping m p x)
    (hf : ∀ a, Keeping m p (f a)) : Keeping m p (x >>= f) := by
  intro tables
  have hfirst := hx tables
  cases hrun : x.run tables with
  | mk r mid =>
    rw [hrun] at hfirst
    cases r with
    | error e =>
      rw [Run.bind_error hrun]
      exact hfirst
    | ok a =>
      rw [Run.bind_ok hrun]
      exact hfirst.trans (hf a mid)

theorem map (f : α → β) {x : Reading α} (hx : Keeping m p x) : Keeping m p (f <$> x) := by
  rw [← bind_pure_comp]
  exact hx.bind fun a => .lift (pure (f a))

theorem forM {f : α → Reading Unit} (h : ∀ a, Keeping m p (f a)) (as : List α) :
    Keeping m p (as.forM f) := by
  induction as with
  | nil => exact .lift (pure ())
  | cons a as ih => exact (h a).bind fun _ => ih

theorem foldlM {f : β → α → Reading β} (h : ∀ b a, Keeping m p (f b a)) (as : List α) (b : β) :
    Keeping m p (as.foldlM f b) := by
  induction as generalizing b with
  | nil => exact .lift (pure b)
  | cons a as ih => exact (h b a).bind ih

theorem load (key : String) : Keeping m p (load p key) := by
  intro tables
  rw [load_run]
  exact .refl tables

end Keeping

end Orchestration.Migration
