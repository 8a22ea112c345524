import Orchestration.Proofs.Migration.Alike

namespace Orchestration.Migration

namespace Tables

def started (tables : Tables) (key : String) : Tables :=
  { tables with inProgress := key :: tables.inProgress }

def ended (tables : Tables) (key : String) : Tables :=
  { tables with inProgress := tables.inProgress.erase key }

end Tables

section

variable (m : Migration) (p : Properties)

def conclude (key : String) : Result Unit × Tables → Result (Option Value) × Tables
  | (.ok (), tables) => (applyOrLoad m p key).run tables
  | (.error e, tables) => (.error e, tables)

mutual

/-- What a property comes to when it is migrated, the tables afterwards, and how many properties are
being migrated at once when they are most. -/
inductive Migrates : Tables → String → Result (Option Value) × Tables → Nat → Prop
  | cached {tables key v} :
    tables.cache.get? key = some v → Migrates tables key (.ok v, tables) tables.inProgress.length
  | written {tables key} :
    tables.cache.get? key = none → key ∈ tables.inProgress →
    Migrates tables key (loaded p tables key, tables) tables.inProgress.length
  | new {tables key moved most} :
    tables.cache.get? key = none → key ∉ tables.inProgress →
    MigratesAll (tables.started key) (m.movedFrom key) moved most →
    Migrates tables key
      ((m.conclude p key moved).1, (m.conclude p key moved).2.ended key) most

inductive MigratesAll : Tables → List String → Result Unit × Tables → Nat → Prop
  | nil {tables} : MigratesAll tables [] (.ok (), tables) tables.inProgress.length
  | cons {tables key keys v mid outcome most rest} :
    Migrates tables key (.ok v, mid) most → MigratesAll mid keys outcome rest →
    MigratesAll tables (key :: keys) outcome (max most rest)
  | fail {tables key keys e after most} :
    Migrates tables key (.error e, after) most →
    MigratesAll tables (key :: keys) (.error e, after) most

end

end

variable {m : Migration} {p : Properties}

theorem inProgress_conclude (key : String) (moved : Result Unit × Tables) :
    (m.conclude p key moved).2.inProgress = moved.2.inProgress := by
  obtain ⟨_ | _, mid⟩ := moved
  · rfl
  · exact fixes_inProgress_applyOrLoad m p key mid

theorem conclude_cases (m : Migration) (p : Properties) (key : String)
    (moved : Result Unit × Tables) :
    (∃ v, (m.conclude p key moved).1 = .ok v ∧
      (m.conclude p key moved).2.cache = moved.2.cache.insert key v) ∨
    (m.conclude p key moved).2.cache = moved.2.cache := by
  obtain ⟨_ | _, mid⟩ := moved
  · exact .inr rfl
  · obtain ⟨after, hrules, hcache, -⟩ := @applyRules_run mid m p key
    obtain ⟨v, hrun⟩ | ⟨r, hrun⟩ := applyOrLoad_cases m p key mid
    · refine .inl ⟨v, congrArg Prod.fst hrun, (congrArg (·.2.cache) hrun).trans ?_⟩
      rw [hrules, ← hcache]
    · refine .inr ((congrArg (·.2.cache) hrun).trans ?_)
      rw [hrules, hcache]

mutual

theorem Migrates.inProgress_eq {tables key outcome most} :
    Migrates m p tables key outcome most → outcome.2.inProgress = tables.inProgress
  | .cached _ => rfl
  | .written _ _ => rfl
  | .new _ _ h => by
    simp only [Tables.ended, inProgress_conclude, h.inProgress_eq, Tables.started,
      List.erase_cons_head]

theorem MigratesAll.inProgress_eq {tables keys outcome most} :
    MigratesAll m p tables keys outcome most → outcome.2.inProgress = tables.inProgress
  | .nil => rfl
  | .cons h hs => hs.inProgress_eq.trans h.inProgress_eq
  | .fail h => h.inProgress_eq

end

mutual

theorem Migrates.unique {tables key outcome most outcome' most'} :
    Migrates m p tables key outcome most → Migrates m p tables key outcome' most' →
      outcome = outcome' ∧ most = most'
  | .cached hc, .cached hc' => by
    cases hc.symm.trans hc'
    exact ⟨rfl, rfl⟩
  | .cached hc, .written hc' _ => nomatch hc.symm.trans hc'
  | .cached hc, .new hc' _ _ => nomatch hc.symm.trans hc'
  | .written hc _, .cached hc' => nomatch hc.symm.trans hc'
  | .written _ _, .written _ _ => ⟨rfl, rfl⟩
  | .written _ hk, .new _ hk' _ => absurd hk hk'
  | .new hc _ _, .cached hc' => nomatch hc.symm.trans hc'
  | .new _ hk _, .written _ hk' => absurd hk' hk
  | .new _ _ h, .new _ _ h' => by
    obtain ⟨rfl, rfl⟩ := h.unique h'
    exact ⟨rfl, rfl⟩

theorem MigratesAll.unique {tables keys outcome most outcome' most'} :
    MigratesAll m p tables keys outcome most → MigratesAll m p tables keys outcome' most' →
      outcome = outcome' ∧ most = most'
  | .nil, .nil => ⟨rfl, rfl⟩
  | .cons h hs, .cons h' hs' => by
    obtain ⟨⟨⟩, rfl⟩ := h.unique h'
    obtain ⟨rfl, rfl⟩ := hs.unique hs'
    exact ⟨rfl, rfl⟩
  | .cons h _, .fail h' => nomatch (h.unique h').1
  | .fail h, .cons h' _ => nomatch (h.unique h').1
  | .fail h, .fail h' => by
    obtain ⟨⟨⟩, rfl⟩ := h.unique h'
    exact ⟨rfl, rfl⟩

end

mutual

theorem Migrates.cache_eq {tables key outcome most} {other : String} :
    Migrates m p tables key outcome most → other ∈ tables.inProgress →
      outcome.2.cache.get? other = tables.cache.get? other
  | .cached _, _ => rfl
  | .written _ _, _ => rfl
  | @Migrates.new _ _ _ key moved _ _ hk h, ho => by
    -- only the new property is remembered, and it was not among those under way
    have hne : key ≠ other := fun he => hk (he ▸ ho)
    refine Eq.trans ?_ (h.cache_eq (List.mem_cons_of_mem _ ho))
    obtain ⟨v, -, hcache⟩ | hcache := conclude_cases m p key moved
    · simp [Tables.ended, hcache, Fields.get?_insert, hne]
    · simp [Tables.ended, hcache]

theorem MigratesAll.cache_eq {tables keys outcome most} {other : String} :
    MigratesAll m p tables keys outcome most → other ∈ tables.inProgress →
      outcome.2.cache.get? other = tables.cache.get? other
  | .nil, _ => rfl
  | .cons h hs, ho => (hs.cache_eq (h.inProgress_eq ▸ ho)).trans (h.cache_eq ho)
  | .fail h, ho => h.cache_eq ho

end

theorem Migrates.get?_of_error {tables key outcome most} {e : Error} :
    Migrates m p tables key outcome most → outcome.1 = .error e →
      outcome.2.cache.get? key = none
  | .cached _, he => nomatch he
  | .written hc _, _ => hc
  | @Migrates.new _ _ _ key moved _ hc _ h, he => by
    have hmoved : moved.2.cache.get? key = none :=
      (h.cache_eq (List.mem_cons_self ..)).trans hc
    obtain ⟨v, hv, -⟩ | hcache := conclude_cases m p key moved
    · cases hv.symm.trans he
    · rwa [← hcache] at hmoved

mutual

/-- Each property that is being migrated is one less that can be waited for. -/
theorem Migrates.most_le {tables key outcome most} :
    Migrates m p tables key outcome most →
      most ≤ tables.inProgress.length + (m.waiting tables.inProgress).card + 1 ∧
        (key ∈ m.rules.map Rule.property →
          most ≤ tables.inProgress.length + (m.waiting tables.inProgress).card)
  | .cached _ => by omega
  | .written _ _ => by omega
  | @Migrates.new _ _ tables key _ most _ hk h => by
    have hmost : most ≤ tables.inProgress.length + 1 +
        (m.waiting (key :: tables.inProgress)).card :=
      h.most_le fun other => property_of_mem_movedFrom
    -- one more is under way, and one less is waiting unless it has no rules
    have hle := card_waiting_cons_le m tables.inProgress key
    refine ⟨by omega, fun hrule => ?_⟩
    have hlt := card_waiting_cons_lt hrule hk
    omega

theorem MigratesAll.most_le {tables keys outcome most} :
    MigratesAll m p tables keys outcome most →
      (∀ key ∈ keys, key ∈ m.rules.map Rule.property) →
        most ≤ tables.inProgress.length + (m.waiting tables.inProgress).card
  | .nil, _ => Nat.le_add_right _ _
  | .cons h hs, hkeys => by
    have hfirst := h.most_le.2 (hkeys _ (List.mem_cons_self ..))
    have hrest := hs.most_le fun key hkey => hkeys key (List.mem_cons_of_mem _ hkey)
    rw [h.inProgress_eq] at hrest
    exact Nat.max_le.2 ⟨hfirst, hrest⟩
  | .fail h, hkeys => h.most_le.2 (hkeys _ (List.mem_cons_self ..))

end

theorem bind_applyOrLoad_run {x : Reading Unit} {tables : Tables} {key : String} :
    (do x; applyOrLoad m p key : Reading (Option Value)).run tables =
      m.conclude p key (x.run tables) := by
  cases hx : x.run tables with
  | mk outcome mid =>
    cases outcome with
    | error e => exact Run.bind_error hx
    | ok u => exact Run.bind_ok hx

theorem exists_migratesAll {read : String → Reading (Option Value)} {under keys : List String}
    {tables : Tables}
    (h : ∀ key ∈ keys, ∀ before : Tables, before.inProgress = under →
      ∃ most, Migrates m p before key ((read key).run before) most)
    (hu : tables.inProgress = under) :
    ∃ most, MigratesAll m p tables keys
      ((keys.forM fun key => discard (read key)).run tables) most := by
  induction keys generalizing tables with
  | nil => exact ⟨_, .nil⟩
  | cons key keys ih =>
    obtain ⟨most, hfirst⟩ := h key (List.mem_cons_self ..) tables hu
    have hmid := hfirst.inProgress_eq
    have hrun : (discard (read key)).run tables = _ := discard_run (read key)
    change ∃ most, MigratesAll m p tables (key :: keys)
      ((discard (read key) >>= fun _ => keys.forM fun key => discard (read key)).run tables) most
    cases hread : (read key).run tables with
    | mk outcome mid =>
      rw [hread] at hfirst hmid hrun
      cases outcome with
      | error e =>
        rw [Run.bind_error hrun]
        exact ⟨_, .fail hfirst⟩
      | ok v =>
        rw [Run.bind_ok hrun]
        obtain ⟨rest, hrest⟩ := ih (fun other ho => h other (List.mem_cons_of_mem key ho))
          (hmid.trans hu)
        exact ⟨_, .cons hfirst hrest⟩

theorem exists_migrates_retrieve {new : Reading (Option Value)} {tables : Tables} {key : String}
    (h : tables.cache.get? key = none → key ∉ tables.inProgress →
      ∃ most, Migrates m p tables key (new.run tables) most) :
    ∃ most, Migrates m p tables key ((retrieve p key new).run tables) most := by
  rw [retrieve_run]
  cases hc : tables.cache.get? key with
  | some v => exact ⟨_, .cached hc⟩
  | none =>
    by_cases hk : key ∈ tables.inProgress
    · rw [List.contains_iff_mem.2 hk]
      exact ⟨_, .written hc hk⟩
    · rw [show tables.inProgress.contains key = false by simpa using hk]
      exact h hc hk

theorem exists_migrates {fuel : Nat} {key : String} {tables : Tables}
    (h : m.Covers tables.inProgress key fuel) :
    ∃ most, Migrates m p tables key ((migrateWith m p fuel key).run tables) most := by
  induction fuel generalizing key tables with
  | zero =>
    refine exists_migrates_retrieve fun _ hk => ?_
    obtain ⟨rest, hrest, -⟩ := h.exists_rest hk
    cases hrest
  | succ fuel ih =>
    refine exists_migrates_retrieve fun hc hk => ?_
    obtain ⟨_, hrest, hcard⟩ := h.exists_rest hk
    cases hrest
    obtain ⟨most, hall⟩ := @exists_migratesAll m p (migrateWith m p fuel)
      (key :: tables.inProgress) (m.movedFrom key) (tables.started key)
      (fun other ho before hbefore => ih (hbefore ▸ covers_of_movedFrom hcard ho)) rfl
    refine ⟨most, ?_⟩
    rw [guarded_run, bind_applyOrLoad_run]
    exact .new hc hk hall

/-- Migrating a property comes to an end. With no fuel it has one outcome, which is the one found,
and there are never more properties being migrated at once, besides those that were before, than
have rules and one more. Whatever it comes to, the properties that are being migrated are those that
were before; nothing is remembered of a property that fails. So between requests none is being
migrated. -/
theorem migrate_returns (m : Migration) (p : Properties) (tables : Tables) (key : String) :
    (∃ most ≤ tables.inProgress.length + (m.rules.map Rule.property).toFinset.card + 1,
      ∀ outcome n, Migrates m p tables key outcome n ↔
        outcome = (m.migrate p key).run tables ∧ n = most) ∧
    ((m.migrate p key).run tables).2.inProgress = tables.inProgress ∧
    (∀ e, ((m.migrate p key).run tables).1 = .error e →
      ((m.migrate p key).run tables).2.cache.get? key = none) ∧
    ∀ requests,
      (((PropertyView.mk p (some m)).answers requests).run .empty).2.inProgress = [] := by
  obtain ⟨most, h⟩ := exists_migrates (p := p)
    (covers_of_length_lt (Nat.lt_succ_self m.rules.length) tables.inProgress key)
  have hcard : (m.waiting tables.inProgress).card ≤ (m.rules.map Rule.property).toFinset.card :=
    Finset.card_le_card Finset.sdiff_subset
  refine ⟨⟨most, by have := h.most_le.1; omega, fun outcome n => ⟨fun h' => h'.unique h, ?_⟩⟩,
    h.inProgress_eq, fun e => h.get?_of_error, ?_⟩
  · rintro ⟨rfl, rfl⟩
    exact h
  · refine fun requests => Fixes.answers (fun m' _ key => ?_) requests .empty
    exact fixes_inProgress_migrateWith m' p _ key

/-- Two properties wait for each other. The second is migrated with the first as it is written, and
then the first fails. -/
theorem migrate_returns_of_ring :
    ∃ m, Migration.ofDeclarations
        [{ kind := .replace, path := ["a", "z"], topPath := some ["b", "x"] },
          { kind := .replace, path := ["b", "w"], topPath := some ["a", "y"] }] true = .ok m ∧
      let p := Properties.ofValues [("a", .map [("y", .text "1"), ("z", .text "2")]),
        ("b", .map [("x", .text "3")])]
      let run := (m.migrate p "a").run .empty
      run.1 = .error (.bare (.propertyConflict ["a.z", "b.x"])) ∧
        run.2.cache.get? "b" = some (some (.map [("x", .text "3"), ("w", .text "1")])) ∧
        run.2.cache.get? "a" = none ∧ run.2.inProgress = [] ∧
        ∃ most ≤ 3, Migrates m p .empty "a" run most := by
  refine ⟨⟨[⟨["a", "z"], .replace (.top ["b", "x"] none), by decide⟩,
    ⟨["b", "w"], .replace (.top ["a", "y"] none), by decide⟩], true⟩,
    congrArg Except.ok (Migration.ofRules_of_pairwise (by decide) true), ?_⟩
  intro p run
  have hfails : run.1 = .error (.bare (.propertyConflict ["a.z", "b.x"])) := by
    with_unfolding_all rfl
  have hremembers : run.2.cache.get? "b" =
      some (some (.map [("x", .text "3"), ("w", .text "1")])) := by
    with_unfolding_all rfl
  obtain ⟨⟨most, hle, h⟩, hprog, hcache, -⟩ := migrate_returns _ p .empty "a"
  exact ⟨hfails, hremembers, hcache _ hfails, hprog, most, hle, (h run most).2 ⟨rfl, rfl⟩⟩

end Orchestration.Migration
