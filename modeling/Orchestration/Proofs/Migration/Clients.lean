import Orchestration.Proofs.Migration.Declarations
import Orchestration.Proofs.Migration.Frame
import Orchestration.Proofs.Migration.Precedence
import Orchestration.Proofs.Migration.Preservation
import Orchestration.Proofs.Migration.Still

namespace Orchestration

namespace Migration

theorem mapM_liftM {α β : Type} (f : α → Result β) (as : List α) :
    as.mapM (fun a => (liftM (f a) : Applying β)) = liftM (as.mapM f) := by
  induction as with
  | nil => rfl
  | cons a as ih => simp [List.mapM_cons, ih]

theorem edit_liftM (change : Fields Value → Result (Fields Value)) (way : List String)
    (data : Fields Value) :
    edit (fun holder => (liftM (change holder) : Applying (Fields Value))) way data =
      liftM (edit change way data) := by
  induction way generalizing data with
  | nil => rfl
  | cons key way ih =>
    have hitem : editItem (edit (fun holder => (liftM (change holder) : Applying _)) way) =
        fun v => liftM (editItem (edit change way) v) := by
      funext v
      cases v with
      | map fields => simp only [editItem, ih, liftM_map_result]
      | _ => rfl
    simp only [edit, ih, hitem, mapM_liftM]
    split
    · simp
    · simp
    · rfl

namespace Rule

variable {r : Rule} {key : String}

theorem exists_lookup (h : r.kind = .resolve) : ∃ l, r.action = .resolve l := by
  cases ha : r.action with
  | resolve l => exact ⟨l, rfl⟩
  | _ => simp [kind, ha, Action.kind] at h

theorem kind_of_nestedSource? (h : r.nestedSource? = some key) : r.kind = .replace := by
  unfold nestedSource? at h
  split at h
  · next ha => simp [kind, ha, Action.kind]
  · cases h

theorem kind_of_movedProperty? (h : r.movedProperty? = some key) : r.kind = .replace := by
  unfold movedProperty? at h
  split at h
  · next ha => simp [kind, ha, Action.kind]
  · next ha => simp [kind, ha, Action.kind]
  · cases h

theorem kind_of_input? (h : r.input? = some key) : r.kind = .add ∨ r.kind = .replace := by
  unfold input? at h
  split at h
  · next ha => simp [kind, ha, Action.kind]
  · next ha => simp [kind, ha, Action.kind]
  · next ha => simp [kind, ha, Action.kind]
  · next ha => simp [kind, ha, Action.kind]
  · cases h

theorem apply_of_kind_resolve (h : r.kind = .resolve) (data : Fields Value) :
    r.apply false data = pure data := by
  obtain ⟨l, hl⟩ := exists_lookup h
  simp [apply, hl]

theorem apply_of_kind_ne_resolve (h : r.kind ≠ .resolve) (clientResolve : Bool)
    (data : Fields Value) : r.apply clientResolve data = r.apply false data := by
  cases ha : r.action with
  | resolve l => simp [kind, ha, Action.kind] at h
  | _ => simp [apply, ha]

theorem apply_of_kind_delete (h : r.kind = .delete) (clientResolve : Bool) :
    r.apply clientResolve [] = pure [] := by
  have ha : r.action = .delete := by
    cases ha : r.action with
    | delete => rfl
    | _ => simp [kind, ha, Action.kind] at h
  unfold apply
  rw [ha]
  cases r.way <;> rfl

theorem exists_apply_eq (r : Rule) (data : Fields Value) :
    ∃ x : Result (Fields Value), r.apply false data = liftM x := by
  cases ha : r.action with
  | add source => exact ⟨edit (r.addTo source data) r.way data, by simp [apply, ha]⟩
  | replace source =>
    refine ⟨r.vacate source data <$> edit (r.replaceIn source data) r.way data, ?_⟩
    simp [apply, ha]
  | resolve l => exact ⟨pure data, by simp [apply, ha]⟩
  | delete =>
    refine ⟨edit (fun holder => pure (holder.erase r.field)) r.way data, ?_⟩
    rw [← edit_liftM]
    simp [apply, ha]

theorem exists_foldlM_apply_eq (rules : List Rule) (data : Fields Value) :
    ∃ x : Result (Fields Value), rules.foldlM (fun data r => r.apply false data) data = liftM x := by
  induction rules generalizing data with
  | nil => exact ⟨pure data, rfl⟩
  | cons r rules ih =>
    obtain ⟨x, hx⟩ := r.exists_apply_eq data
    rw [List.foldlM_cons, hx]
    cases x with
    | error e => exact ⟨.error e, rfl⟩
    | ok next => exact ih next

end Rule

variable {m : Migration} {p : Properties} {key : String}

theorem fixes_queries_applyRules (hm : m.clientResolve = false) (p : Properties) (key : String) :
    Fixes Tables.queries (m.applyRules p key) := by
  refine .bind (fun tables => ?_) fun data => .bind (fun tables => ?_) fun data =>
    .bind (.forM (fun root tables => rfl) _) fun _ => .lift (pure _)
  · rw [gather_run]
  · obtain ⟨x, hx⟩ := Rule.exists_foldlM_apply_eq (m.rulesFor key) data
    rw [hm, hx, ofApplying_run]
    exact List.append_nil _

theorem fixes_queries_migrateWith (hm : m.clientResolve = false) (p : Properties) (fuel : Nat)
    (key : String) : Fixes Tables.queries (m.migrateWith p fuel key) := by
  induction fuel generalizing key with
  | zero => exact (Fixes.load p key).retrieve key
  | succ fuel ih =>
    have hrules : Fixes Tables.queries (m.applyOrLoad p key) :=
      .applyOrLoad (fun _ _ => rfl) (fixes_queries_applyRules hm p key)
    refine Fixes.retrieve (fun tables => ?_) key
    rw [guarded_run]
    exact (Fixes.bind (.forM (fun other => (ih other).map _) _) fun _ => hrules) _

def withoutClients (m : Migration) : Migration :=
  ⟨m.rules.filter (·.kind ≠ .resolve), true⟩

theorem ofRules_withoutClients (rules : List Rule) :
    ofRules (rules.filter (·.kind ≠ .resolve)) true = (ofRules rules false).withoutClients :=
  congrArg (Migration.mk · true)
    (Sorting.mergeSort_filter Rule.standsBefore_total Rule.standsBefore_trans _ rules)

theorem rulesFor_withoutClients (m : Migration) (key : String) :
    m.withoutClients.rulesFor key = (m.rulesFor key).filter (·.kind ≠ .resolve) := by
  unfold rulesFor withoutClients
  rw [List.filter_comm, Sorting.mergeSort_filter Rule.runsBefore_total Rule.runsBefore_trans]

theorem filter_filter_kind {q : Rule → Bool} (hq : ∀ r, q r → r.kind ≠ .resolve)
    (rules : List Rule) :
    (rules.filter (·.kind ≠ .resolve)).filter q = rules.filter q := by
  rw [List.filter_filter]
  refine List.filter_congr fun r _ => ?_
  cases h : q r with
  | false => rfl
  | true => simpa using hq r h

theorem filterMap_filter_kind {f : Rule → Option String}
    (hf : ∀ r key, f r = some key → r.kind ≠ .resolve) (rules : List Rule) :
    (rules.filter (·.kind ≠ .resolve)).filterMap f = rules.filterMap f := by
  rw [List.filterMap_filter]
  refine List.filterMap_congr fun r _ => ?_
  cases h : f r with
  | none => simp
  | some key => simp [hf r key h]

theorem movedFrom_withoutClients (m : Migration) (key : String) :
    m.withoutClients.movedFrom key = m.movedFrom key := by
  refine congrArg (List.map _) (filter_filter_kind (fun r hr => ?_) m.rules)
  simp [Rule.kind_of_nestedSource? (of_decide_eq_true hr)]

theorem masks_withoutClients (m : Migration) (key : String) :
    m.withoutClients.masks key = m.masks key := by
  unfold masks withoutClients
  rw [List.any_filter]
  congr 1
  funext r
  cases h : decide (r.movedProperty? = some key) with
  | false => simp
  | true => simp [Rule.kind_of_movedProperty? (of_decide_eq_true h)]

theorem foldlM_withoutClients (rules : List Rule) (data : Fields Value) :
    (rules.filter (·.kind ≠ .resolve)).foldlM (fun data r => r.apply true data) data =
      rules.foldlM (fun data r => r.apply false data) data := by
  induction rules generalizing data with
  | nil => rfl
  | cons r rules ih =>
    by_cases h : r.kind = .resolve
    · rw [List.filter_cons_of_neg (by simpa using h), List.foldlM_cons,
        Rule.apply_of_kind_resolve h, pure_bind, ih]
    · rw [List.filter_cons_of_pos (by simpa using h), List.foldlM_cons, List.foldlM_cons,
        Rule.apply_of_kind_ne_resolve h]
      exact bind_congr fun data => ih data

theorem alike_withoutClients (hm : m.clientResolve = false) (p : Properties) :
    m.withoutClients.Alike m p where
  movedFrom := m.movedFrom_withoutClients
  applyRules := by
    intro key
    have hinputs : ((m.rulesFor key).filter (·.kind ≠ .resolve)).filterMap Rule.input? =
        (m.rulesFor key).filterMap Rule.input? :=
      filterMap_filter_kind (fun r key h => by
        obtain h | h := Rule.kind_of_input? h <;> simp [h]) _
    have hsources : ((m.rulesFor key).filter (·.kind ≠ .resolve)).filterMap Rule.nestedSource? =
        (m.rulesFor key).filterMap Rule.nestedSource? :=
      filterMap_filter_kind (fun r key h => by simp [Rule.kind_of_nestedSource? h]) _
    unfold Migration.applyRules
    simp only [rulesFor_withoutClients, hinputs, hsources, hm]
    simp only [withoutClients, foldlM_withoutClients]

theorem gather_singleton (value : String → Result (Option Value)) (key : String) :
    gather value [key] = (fun v => v.elim [] fun v => [(key, v)]) <$> value key := by
  rw [gather, List.foldlM_cons, gatherOne_of_none rfl]
  exact bind_pure _

theorem get?_elim (key : String) (v : Option Value) :
    Fields.get? (v.elim [] fun v => [(key, v)]) key = v := by
  cases v <;> simp [Fields.get?]

theorem foldlM_eq_pure {rules : List Rule} {data : Fields Value}
    (h : ∀ r ∈ rules, r.apply false data = pure data) :
    rules.foldlM (fun data r => r.apply false data) data = pure data := by
  induction rules with
  | nil => rfl
  | cons r rules ih =>
    rw [List.foldlM_cons, h r (List.mem_cons_self ..), pure_bind]
    exact ih fun r hr => h r (List.mem_cons_of_mem _ hr)

section

variable (hkinds : ∀ r ∈ m.rulesFor key, r.kind = .resolve ∨ r.kind = .delete)

include hkinds

theorem filterMap_input?_eq_nil : (m.rulesFor key).filterMap Rule.input? = [] := by
  refine List.filterMap_eq_nil_iff.2 fun r hr => Option.eq_none_iff_forall_ne_some.2 fun name h => ?_
  obtain h | h := Rule.kind_of_input? h <;> obtain hk | hk := hkinds r hr <;> simp [hk] at h

theorem filterMap_nestedSource?_eq_nil : (m.rulesFor key).filterMap Rule.nestedSource? = [] := by
  refine List.filterMap_eq_nil_iff.2 fun r hr => Option.eq_none_iff_forall_ne_some.2 fun name h => ?_
  have h := Rule.kind_of_nestedSource? h
  obtain hk | hk := hkinds r hr <;> simp [hk] at h

theorem foldlM_of_kinds {v : Option Value}
    (hdelete : (∃ r ∈ m.rulesFor key, r.kind = .delete) → v = none) :
    (m.rulesFor key).foldlM (fun data r => r.apply false data) (v.elim [] fun v => [(key, v)]) =
      pure (v.elim [] fun v => [(key, v)]) := by
  refine foldlM_eq_pure fun r hr => ?_
  obtain hk | hk := hkinds r hr
  · exact Rule.apply_of_kind_resolve hk _
  · rw [hdelete ⟨r, hr, hk⟩]
    exact Rule.apply_of_kind_delete hk false

variable (hm : m.clientResolve = false)

include hm

theorem still_of_kinds (hmoved : m.movedFrom key = [])
    (hdelete : (∃ r ∈ m.rulesFor key, r.kind = .delete) → p.value key = .ok none) :
    m.Still p key where
  movedFrom := hmoved
  applyRules := by
    intro tables hl
    have hgather : (gather (load p) [key]).run tables =
        ((fun v => v.elim [] fun v => [(key, v)]) <$> p.value key, tables) := by
      rw [gather_run, gather_singleton, hl]
    unfold Migration.applyRules
    dsimp only
    rw [filterMap_input?_eq_nil hkinds, filterMap_nestedSource?_eq_nil hkinds, hm]
    cases hv : p.value key with
    | error e =>
      rw [hv] at hgather
      exact Run.bind_error hgather
    | ok v =>
      rw [hv] at hgather
      have hasked : (Reading.ofApplying (pure (v.elim [] fun v => [(key, v)]))).run tables =
          (.ok (v.elim [] fun v => [(key, v)]), tables) := by
        rw [ofApplying_run]
        exact congrArg (_, { tables with queries := · }) (List.append_nil _)
      refine (Run.bind_ok hgather).trans ?_
      rw [foldlM_of_kinds hkinds fun hd => by rw [hv] at hdelete; exact Except.ok.inj (hdelete hd)]
      refine (Run.bind_ok hasked).trans ?_
      exact congrArg (Except.ok ·, tables) (get?_elim key v)

theorem carryOut_of_kinds {value : String → Result (Option Value)} (hvalue : value key = .ok none) :
    ∃ taken, m.carryOut value key = .ok ([], taken) := by
  have hfst : Prod.fst <$> m.carryOut value key = .ok [] := by
    rw [fst_carryOut, inputs, filterMap_input?_eq_nil hkinds, gather_singleton, hvalue, hm]
    exact congrArg (fun x : Applying (Fields Value) => (x.run []).1)
      (foldlM_of_kinds hkinds (v := none) fun _ => rfl)
  obtain ⟨⟨_, taken⟩, hcarry, rfl⟩ := Run.exists_of_map_ok hfst
  exact ⟨taken, hcarry⟩

theorem eq_none_of_outcome (hacyclic : ∀ key, ¬Relation.TransGen m.Moves key key)
    (hvalue : p.value key = .ok none) {v : Option Value} (h : (m.outcome p key).value = .ok v) :
    v = none := by
  have hcut : ∀ taken, cutAll taken p.value key = .ok none := by
    intro taken
    have hfold : taken.foldl (cutAt key) none = none := by
      induction taken with
      | nil => rfl
      | cons path taken ih => rw [List.foldl_cons, cutAt_none, ih]
    rw [cutAll, hvalue]
    exact congrArg Except.ok hfold
  rw [outcome_eq hacyclic key, settle] at h
  split at h
  · cases h
  · obtain ⟨taken, hcarry⟩ := carryOut_of_kinds hkinds hm (hcut _)
    rw [ruled, hcarry] at h
    exact (Except.ok.inj h).symm

end

theorem affects_eq_false_iff :
    m.affects key = false ↔ m.rulesFor key = [] ∧ m.movedFrom key = [] := by
  simp only [affects, Bool.or_eq_false_iff, List.any_eq_false, List.eq_nil_iff_forall_not_mem,
    mem_rulesFor, movedFrom, List.mem_map, List.mem_filter, decide_eq_true_eq]
  refine and_congr ⟨fun h r hr => h r hr.1 hr.2, fun h r hr hp => h r ⟨hr, hp⟩⟩
    ⟨fun h other => ?_, fun h r hr hs => h _ ⟨r, ⟨hr, hs⟩, rfl⟩⟩
  rintro ⟨r, hr, -⟩
  exact h r hr.1 hr.2

theorem affects_of_withoutClients (h : m.withoutClients.affects key = true) :
    m.affects key = true := by
  rw [← Bool.not_eq_false, affects_eq_false_iff] at *
  rw [movedFrom_withoutClients, rulesFor_withoutClients] at h
  exact fun ha => h ⟨by rw [ha.1]; rfl, ha.2⟩

theorem still_of_not_affects (hm : m.clientResolve = false)
    (h : m.withoutClients.affects key = false) : m.Still p key := by
  obtain ⟨hrules, hmoved⟩ := affects_eq_false_iff.1 h
  rw [rulesFor_withoutClients] at hrules
  rw [movedFrom_withoutClients] at hmoved
  have hresolve : ∀ r ∈ m.rulesFor key, r.kind = .resolve := by
    intro r hr
    simpa using List.filter_eq_nil_iff.1 hrules r hr
  refine still_of_kinds (fun r hr => .inl (hresolve r hr)) hm hmoved ?_
  rintro ⟨r, hr, hdelete⟩
  rw [hresolve r hr] at hdelete
  cases hdelete

theorem untangled_withoutClients (h : m.Untangled) : m.withoutClients.Untangled := by
  have hmoves : m.withoutClients.Moves = m.Moves := by
    funext other key
    rw [Moves, Moves, movedFrom_withoutClients]
  refine ⟨fun s hs path hp root hr hm r hread => ?_, ?_⟩
  · rw [hmoves] at hm
    exact h.apart s (List.mem_filter.1 hs).1 path hp root hr hm r (List.mem_filter.1 hread).1
  · rw [hmoves]
    exact h.acyclic

end Migration

namespace Properties

variable {p : Properties} {key : String} {stack : Stack} {s : Option Snippet}

theorem ofSnippet_cases (h : ofSnippet stack s = .ok p) :
    p = empty ∨ (∃ fields, p = ofSnippets stack fields) ∨ ∃ fields, p = ofValues fields := by
  unfold ofSnippet at h
  split at h
  · exact .inl (Except.ok.inj h).symm
  · exact .inl (Except.ok.inj h).symm
  · exact .inr (.inl ⟨_, (Except.ok.inj h).symm⟩)
  · obtain ⟨w, -, h⟩ := Run.exists_of_bind_ok h
    split at h
    · exact .inl (Except.ok.inj h).symm
    · exact .inr (.inr ⟨_, (Except.ok.inj h).symm⟩)
    · cases h
  · cases h

theorem value_of_notMem (h : ofSnippet stack s = .ok p) (hk : key ∉ p.names) :
    p.value key = .ok none := by
  obtain rfl | ⟨fields, rfl⟩ | ⟨fields, rfl⟩ := ofSnippet_cases h
  · rfl
  · simp only [ofSnippets, (Fields.get?_eq_none_iff fields key).2 hk]
    rfl
  · simp only [ofValues, (Fields.get?_eq_none_iff fields key).2 hk]
    rfl

theorem filter_value (h : ofSnippet stack s = .ok p) (key : String) :
    (fun v => v.filter (!·.isNull)) <$> p.value key = p.value key := by
  obtain rfl | ⟨fields, rfl⟩ | ⟨fields, rfl⟩ := ofSnippet_cases h
  · rfl
  · simp only [ofSnippets]
    cases fields.get? key with
    | none => rfl
    | some s =>
      cases hs : stack.value s with
      | error e => simp [hs]
      | ok v => cases hv : v.isNull <;> simp [hs, hv]
  · simp only [ofValues, map_pure, Option.filter_filter, Bool.and_self]

end Properties

end Orchestration
