import Orchestration.Proofs.Migration.Coherent

namespace Orchestration.Migration

variable {m : Migration} {p : Properties} {tables : Tables} {key : String}

theorem ofApplying_run {α : Type} (x : Applying α) :
    (Reading.ofApplying x).run tables =
      ((x.run []).1, { tables with queries := tables.queries ++ (x.run []).2 }) := rfl

theorem leave_run (data : Fields Value) (roots : List String) :
    ∃ after, (roots.forM fun root => Reading.leave root (data.get? root)).run tables =
      (.ok (), after) ∧ after.cache = tables.cache ∧ after.inProgress = tables.inProgress ∧
      ∀ root, loaded p after root =
        if root ∈ roots then .ok (data.get? root) else loaded p tables root := by
  induction roots generalizing tables with
  | nil => exact ⟨tables, rfl, rfl, rfl, by simp⟩
  | cons first roots ih =>
    obtain ⟨after, hrun, hc, hi, hl⟩ := @ih
      { tables with residue := tables.residue.insert first (data.get? first) }
    refine ⟨after, (Run.bind_ok rfl).trans hrun, hc, hi, fun root => ?_⟩
    rw [hl root]
    by_cases hr : root ∈ roots
    · simp [hr]
    · by_cases hf : first = root
      · simp [hf, loaded, Fields.get?_insert]
      · simp [hr, loaded, Fields.get?_insert, hf, Ne.symm hf]

/-- Running the rules of a property changes what is left of the properties that they take parts out
of, and nothing else that is kept. -/
theorem applyRules_run (m : Migration) (p : Properties) (key : String) :
    ∃ after, (applyRules m p key).run tables =
        ((fun (last, _) => last.get? key) <$> m.carryOut (loaded p tables) key, after) ∧
      after.cache = tables.cache ∧ after.inProgress = tables.inProgress ∧
      ∀ root, loaded p after root = match m.carryOut (loaded p tables) key with
        | .ok (last, _) =>
          if root ∈ (m.rulesFor key).filterMap Rule.nestedSource? then .ok (last.get? root)
          else loaded p tables root
        | .error _ => loaded p tables root := by
  cases hg : gather (loaded p tables) (m.inputs key) with
  | error e =>
    have hrun := (gather_run p (m.inputs key)).trans (congrArg (·, tables) hg)
    unfold carryOut
    rw [hg]
    exact ⟨tables, Run.bind_error hrun, rfl, rfl, fun _ => rfl⟩
  | ok data =>
    have hrun := (gather_run p (m.inputs key)).trans (congrArg (·, tables) hg)
    have hcarry : m.carryOut (loaded p tables) key =
        ((Rule.applyAll m.clientResolve (m.rulesFor key) data).run []).1 := by
      unfold carryOut
      rw [hg]
      rfl
    have happ : ∀ before : Tables, (Reading.ofApplying
        ((m.rulesFor key).foldlM (fun data r => r.apply m.clientResolve data) data)).run before =
          (Prod.fst <$> ((Rule.applyAll m.clientResolve (m.rulesFor key) data).run []).1,
            { before with queries := before.queries ++
              ((Rule.applyAll m.clientResolve (m.rulesFor key) data).run []).2 }) := by
      intro before
      rw [ofApplying_run, Rule.foldlM_apply, Run.map_run]
    rw [hcarry]
    generalize (Rule.applyAll m.clientResolve (m.rulesFor key) data).run [] = outcome at happ
    obtain ⟨_ | ⟨last, taken⟩, asked⟩ := outcome
    · refine ⟨_, (Run.bind_ok hrun).trans (Run.bind_error (happ tables)), rfl, rfl, fun _ => rfl⟩
    · obtain ⟨after, hleave, hc, hi, hl⟩ := @leave_run p
        { tables with queries := tables.queries ++ asked } last
        ((m.rulesFor key).filterMap Rule.nestedSource?)
      refine ⟨after, ?_, hc, hi, hl⟩
      exact (Run.bind_ok hrun).trans ((Run.bind_ok (happ tables)).trans (Run.bind_ok hleave))

/-- What a step does to coherent tables: it finds a result, and leaves coherent tables that have
forgotten nothing and remember no property that is being migrated. -/
structure Finds {α : Type} (m : Migration) (p : Properties) (tables : Tables) (x : Reading α)
    (r : Result α) (after : Tables) : Prop where
  run : x.run tables = (r, after)
  coherent : Coherent m p after
  inProgress : after.inProgress = tables.inProgress
  kept : tables.cache.keys ⊆ after.cache.keys
  pending : ∀ key ∈ tables.inProgress, key ∈ after.cache.keys → key ∈ tables.cache.keys

theorem loaded_key (hm : m.Untangled) (hs : Coherent m p tables)
    (hc : ∀ other, m.Moves other key → (m.outcome p other).taken.isSome →
      other ∈ tables.cache.keys) :
    loaded p tables key = cutAll (m.takenFrom (m.outcome p) key) p.value key := by
  rw [hm.loaded_eq hs hc]
  generalize cutAll (m.takenFrom (m.outcome p) key) p.value = value
  unfold cutAll
  conv => rhs; rw [← id_map (value key)]
  congr 1
  funext v
  exact foldl_cutAt_of_head (by simp) v

theorem foldl_reaches {root : String} (h : m.Moves key root) (taken : List (List String))
    (v : Option Value) :
    (taken.filter (m.reaches key)).foldl (cutAt root) v = taken.foldl (cutAt root) v := by
  rw [List.foldl_filter]
  congr 1
  funext v path
  by_cases hh : path.head? = some root
  · have hr : key ∈ m.movedFrom root := h
    simp [reaches, hh, hr]
  · simp [cutAt_of_head hh]

theorem coherent_remember {after : Tables} {last : Fields Value} {taken : List (List String)}
    (hm : m.Untangled) (hs : Coherent m p tables) (hk : key ∉ tables.cache.keys)
    (hc : m.carryOut (loaded p tables) key = .ok (last, taken))
    (ho : m.outcome p key = ⟨.ok (last.get? key), some (taken.filter (m.reaches key))⟩)
    (hcache : after.cache = tables.cache.insert key (last.get? key))
    (hl : ∀ root, loaded p after root =
      if root ∈ (m.rulesFor key).filterMap Rule.nestedSource? then .ok (last.get? root)
      else loaded p tables root) : Coherent m p after := by
  constructor
  · rw [hcache]
    exact Fields.nodup_keys_insert hs.nodup _ _
  · intro other v h
    rw [hcache, Fields.get?_insert] at h
    split at h
    · subst_vars
      cases h
      simp [ho]
    · exact hs.cached h
  · funext root
    have hkeys : lostBy m p (tables.cache.keys ++ [key]) =
        lostBy m p tables.cache.keys ++ (m.outcome p key).lost := by simp [lostBy]
    rw [hl root, hcache, Fields.keys_insert, if_neg hk, hkeys, cutAll_append, ← hs.loaded]
    split
    · next hr =>
      have hmoves : m.Moves key root := moves_iff.2 (by simpa using hr)
      rw [← (carryOut_ok hc).2.1 root (mem_inputs_of_moves hmoves) (ne_of_moves hmoves).symm]
      simp only [cutAll, Outcome.lost, ho, Option.getD_some, foldl_reaches hmoves]
    · next hr =>
      have hmoves : ¬m.Moves key root := fun h => hr (by simpa using moves_iff.1 h)
      simp only [cutAll, hm.foldl_lost_of_not_moves hmoves]
      exact (id_map _).symm

theorem applyOrLoad_run (m : Migration) (p : Properties) (key : String) :
    (applyOrLoad m p key).run tables = match (applyRules m p key).run tables with
      | (.ok v, after) => (.ok v, { after with cache := after.cache.insert key v })
      | (.error (.bare (.parameterMissing _)), after) => (loaded p after key, after)
      | (.error e, after) => (.error e, after) := by
  cases hr : (applyRules m p key).run tables with
  | mk outcome after =>
    refine (Run.bind_state hr).trans ?_
    cases outcome with
    | ok v => rfl
    | error e =>
      cases e with
      | bare cause =>
        cases cause with
        | parameterMissing name => exact load_run p key
        | _ => rfl
      | _ => rfl

theorem applyOrLoad_run_of_error {after : Tables} {value : String → Result (Option Value)}
    {e : Error} (hrun : (applyRules m p key).run tables = (.error e, after))
    (hcarry : m.carryOut value key = .error e) (hl : loaded p after key = value key) :
    (applyOrLoad m p key).run tables = ((m.ruled value key).value, after) ∧
      (m.ruled value key).taken = none := by
  rw [applyOrLoad_run, hrun, ruled, hcarry]
  cases e with
  | bare cause =>
    cases cause with
    | parameterMissing name => exact ⟨congrArg (·, after) hl, rfl⟩
    | _ => exact ⟨rfl, rfl⟩
  | _ => exact ⟨rfl, rfl⟩

theorem applyOrLoad_finds (hm : m.Untangled) (hs : Coherent m p tables)
    (hc : ∀ other, m.Moves other key → (m.outcome p other).taken.isSome →
      other ∈ tables.cache.keys) (hk : key ∉ tables.cache.keys)
    (ho : m.outcome p key = m.ruled (cutAll (m.takenFrom (m.outcome p) key) p.value) key) :
    ∃ after, (applyOrLoad m p key).run tables = ((m.outcome p key).value, after) ∧
      Coherent m p after ∧ after.inProgress = tables.inProgress ∧
      ∀ other, other ∈ after.cache.keys ↔
        other ∈ tables.cache.keys ∨ other = key ∧ (m.outcome p key).taken.isSome := by
  obtain ⟨after, hrun, hcache, hi, hl⟩ := @applyRules_run tables m p key
  have hcarry := hm.carryOut_eq hs hc hk
  cases hout : m.carryOut (cutAll (m.takenFrom (m.outcome p) key) p.value) key with
  | ok out =>
    obtain ⟨last, taken⟩ := out
    rw [hout] at hcarry
    rw [ruled, hout] at ho
    change m.carryOut (loaded p tables) key = .ok (List.foldl remove last _, taken) at hcarry
    -- what others lost does not show in the property itself
    have hlast : (((lostBy m p tables.cache.keys).filter (·.head? ≠ some key)).foldl
        remove last).get? key = last.get? key := by
      rw [get?_removeAll (carryOut_ok hout).1, foldl_cutAt_of_head (by simp)]
    generalize ((lostBy m p tables.cache.keys).filter (·.head? ≠ some key)).foldl remove last = left
      at hcarry hlast
    dsimp only at ho
    rw [← hlast] at ho
    simp only [hcarry] at hl hrun
    refine ⟨{ after with cache := after.cache.insert key (left.get? key) }, ?_, ?_, hi, ?_⟩
    · rw [applyOrLoad_run, hrun, ho]
      rfl
    · refine coherent_remember hm hs hk hcarry ho ?_ hl
      rw [hcache]
    · simp [hcache, Fields.keys_insert, hk, ho]
  | error e =>
    rw [hout] at hcarry
    change m.carryOut (loaded p tables) key = .error e at hcarry
    simp only [hcarry] at hl hrun
    -- rules that fail take nothing out
    have hloaded : loaded p after = loaded p tables := funext hl
    have hkey : loaded p after key = cutAll (m.takenFrom (m.outcome p) key) p.value key := by
      rw [hloaded, loaded_key hm hs hc]
    obtain ⟨hvalue, htaken⟩ := applyOrLoad_run_of_error hrun hout hkey
    rw [← ho] at hvalue htaken
    exact ⟨after, hvalue, hs.congr hcache hloaded, hi, by simp [hcache, htaken]⟩

theorem retrieve_run (p : Properties) (key : String) (new : Reading (Option Value)) :
    (retrieve p key new).run tables =
      match tables.cache.get? key, tables.inProgress.contains key with
      | some v, _ => (.ok v, tables)
      | none, true => (loaded p tables key, tables)
      | none, false => new.run tables := by
  have hget : (get : Reading Tables).run tables = (.ok tables, tables) := rfl
  refine (Run.bind_ok hget).trans ((Run.bind_ok hget).trans ?_)
  cases tables.cache.get? key with
  | some v => rfl
  | none =>
    cases tables.inProgress.contains key with
    | true => exact load_run p key
    | false => rfl

theorem guarded_run {α : Type} (key : String) (x : Reading α) :
    (Reading.guarded key x).run tables =
      ((x.run { tables with inProgress := key :: tables.inProgress }).1,
        let after := (x.run { tables with inProgress := key :: tables.inProgress }).2
        { after with inProgress := after.inProgress.erase key }) := rfl

theorem guarded_finds {x : Reading (Option Value)} {r : Result (Option Value)} {mid : Tables}
    (hrun : x.run { tables with inProgress := key :: tables.inProgress } = (r, mid))
    (hs : Coherent m p mid) (hi : mid.inProgress = key :: tables.inProgress)
    (hk : tables.cache.keys ⊆ mid.cache.keys)
    (hp : ∀ other ∈ tables.inProgress, other ∈ mid.cache.keys → other ∈ tables.cache.keys) :
    Finds m p tables (.guarded key x) r { mid with inProgress := tables.inProgress } := by
  refine ⟨?_, hs.congr rfl rfl, rfl, hk, hp⟩
  rw [guarded_run, hrun]
  simp [hi]

theorem forM_finds {read : String → Reading (Option Value)} {others under : List String}
    (hf : ∀ other ∈ others, ∀ before, Coherent m p before → before.inProgress = under →
      ∃ after, Finds m p before (read other) (m.outcome p other).value after ∧
        ((m.outcome p other).taken.isSome → other ∈ after.cache.keys))
    (hs : Coherent m p tables) (hu : tables.inProgress = under) :
    ∃ after, Finds m p tables (others.forM fun other => discard (read other))
        (others.forM fun other => discard (m.outcome p other).value) after ∧
      ((others.forM fun other => discard (m.outcome p other).value : Result Unit) = .ok () →
        ∀ other ∈ others, (m.outcome p other).taken.isSome → other ∈ after.cache.keys) := by
  induction others generalizing tables with
  | nil => exact ⟨tables, ⟨rfl, hs, rfl, List.Subset.refl _, fun _ _ h => h⟩, by simp⟩
  | cons other others ih =>
    obtain ⟨mid, hmid, hkept⟩ := hf other (by simp) tables hs hu
    have hrun : (discard (read other)).run tables = (discard (m.outcome p other).value, mid) :=
      (Run.map_run _).trans (by rw [hmid.run]; rfl)
    change ∃ after, Finds m p tables
      (discard (read other) >>= fun _ => others.forM fun other => discard (read other))
      (discard (m.outcome p other).value >>= fun _ =>
        others.forM fun other => discard (m.outcome p other).value) after ∧
      ((discard (m.outcome p other).value >>= fun _ =>
        others.forM fun other => discard (m.outcome p other).value) = .ok () → _)
    cases ho : (m.outcome p other).value with
    | error e =>
      rw [ho] at hrun
      exact ⟨mid, ⟨Run.bind_error hrun, hmid.coherent, hmid.inProgress, hmid.kept, hmid.pending⟩,
        nofun⟩
    | ok v =>
      rw [ho] at hrun
      obtain ⟨after, hafter, hall⟩ := ih (fun other ho => hf other (by simp [ho])) hmid.coherent
        (hmid.inProgress.trans hu)
      refine ⟨after, ⟨(Run.bind_ok hrun).trans hafter.run, hafter.coherent,
        hafter.inProgress.trans hmid.inProgress, fun x hx => hafter.kept (hmid.kept hx),
        fun x hx hc => ?_⟩, fun hok x hx hsome => ?_⟩
      · exact hmid.pending x hx (hafter.pending x (hmid.inProgress ▸ hx) hc)
      · obtain rfl | hx := List.mem_cons.1 hx
        · exact hafter.kept (hkept hsome)
        · exact hall hok x hx hsome

theorem guarded_migrate_finds {x : Reading Unit} {mid : Tables} (hm : m.Untangled)
    (hc : tables.cache.get? key = none) (hp : key ∉ tables.inProgress)
    (hx : Finds m p { tables with inProgress := key :: tables.inProgress } x
      ((m.movedFrom key).forM fun other => discard (m.outcome p other).value) mid)
    (hall : ((m.movedFrom key).forM fun other => discard (m.outcome p other).value :
      Result Unit) = .ok () →
        ∀ other ∈ m.movedFrom key, (m.outcome p other).taken.isSome → other ∈ mid.cache.keys) :
    ∃ after, Finds m p tables (.guarded key do x; applyOrLoad m p key) (m.outcome p key).value after ∧
      ((m.outcome p key).taken.isSome → key ∈ after.cache.keys) := by
  have hkey : key ∉ tables.cache.keys := (Fields.get?_eq_none_iff _ _).1 hc
  have hkept : tables.cache.keys ⊆ mid.cache.keys := hx.kept
  have hout := outcome_eq hm.acyclic key (p := p)
  unfold settle at hout
  cases hres : (m.movedFrom key).forM fun other => discard (m.outcome p other).value with
  | error e =>
    rw [hres] at hout
    have hfail := hx.run
    rw [hres] at hfail
    refine ⟨_, guarded_finds (by rw [hout]; exact Run.bind_error hfail) hx.coherent hx.inProgress
      hkept fun other ho => hx.pending other (by simp [ho]), ?_⟩
    simp [hout]
  | ok u =>
    rw [hres] at hout
    have hdone := hx.run
    rw [hres] at hdone
    have hpending : key ∉ mid.cache.keys := fun h => hkey (hx.pending key (by simp) h)
    obtain ⟨after, hafter, hcoh, hprog, hkeys⟩ :=
      applyOrLoad_finds hm hx.coherent (hall hres) hpending hout
    refine ⟨_, guarded_finds ((Run.bind_ok hdone).trans hafter) hcoh
      (hprog.trans hx.inProgress) (fun other ho => (hkeys other).2 (.inl (hkept ho)))
      fun other ho hafter => ?_, fun hsome => (hkeys key).2 (.inr ⟨rfl, hsome⟩)⟩
    obtain hmem | ⟨rfl, -⟩ := (hkeys other).1 hafter
    · exact hx.pending other (by simp [ho]) hmem
    · exact absurd ho hp

/-- Migrating a property comes to its outcome, as long as only properties of higher rank are being
migrated. -/
theorem migrateWith_finds (hm : m.Untangled) {rank : String → Nat}
    (hr : ∀ other key, m.Moves other key → rank other < rank key) {fuel : Nat}
    (hf : rank key < fuel) (hs : Coherent m p tables)
    (hi : ∀ other ∈ tables.inProgress, rank key < rank other) :
    ∃ after, Finds m p tables (migrateWith m p fuel key) (m.outcome p key).value after ∧
      ((m.outcome p key).taken.isSome → key ∈ after.cache.keys) := by
  induction fuel generalizing key tables with
  | zero => omega
  | succ fuel ih =>
    have hni : key ∉ tables.inProgress := fun h => absurd (hi key h) (Nat.lt_irrefl _)
    have hrun := @retrieve_run tables p key (.guarded key do
      (m.movedFrom key).forM fun other => discard (migrateWith m p fuel other)
      applyOrLoad m p key)
    rw [show tables.inProgress.contains key = false by simpa using hni] at hrun
    cases hc : tables.cache.get? key with
    | some v =>
      rw [hc] at hrun
      obtain ⟨hv, -⟩ := hs.cached hc
      refine ⟨tables, ⟨?_, hs, rfl, List.Subset.refl _, fun _ _ h => h⟩, fun _ => ?_⟩
      · rw [hv]
        exact hrun
      · exact (Fields.contains_iff _ _).1 (by simp [Fields.contains, hc])
    | none =>
      rw [hc] at hrun
      -- the properties that come first have a lower rank, so none of them is being migrated
      have hstart : Coherent m p { tables with inProgress := key :: tables.inProgress } :=
        hs.congr rfl rfl
      obtain ⟨mid, hmid, hall⟩ := forM_finds (fun other ho before hbefore hu => ih
        (by have := hr other key ho; omega) hbefore fun x hx => by
          rw [hu] at hx
          obtain rfl | hx := List.mem_cons.1 hx
          · exact hr other x ho
          · exact (hr other key ho).trans (hi x hx)) hstart rfl
      obtain ⟨after, hafter, hmem⟩ := guarded_migrate_finds hm hc hni hmid hall
      exact ⟨after, { hafter with run := hrun.trans hafter.run }, hmem⟩

end Orchestration.Migration
