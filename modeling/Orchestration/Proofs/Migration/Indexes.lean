import Orchestration.Proofs.Migration.Alike
import Orchestration.Proofs.Migration.Declarations

namespace Orchestration.Migration

theorem canonical_canonical (path : List String) : canonical (canonical path) = canonical path := by
  simp [canonical, List.filter_filter]

namespace Rule

variable (r : Rule)

def withoutIndexes : Rule where
  path := canonical r.path
  action := r.action
  canonical_ne_nil := by
    rw [canonical_canonical]
    exact r.canonical_ne_nil

@[simp] theorem action_withoutIndexes : r.withoutIndexes.action = r.action := rfl

@[simp] theorem kind_withoutIndexes : r.withoutIndexes.kind = r.kind := rfl

@[simp] theorem property_withoutIndexes : r.withoutIndexes.property = r.property := by
  simp [property, withoutIndexes, canonical_canonical]

@[simp] theorem way_withoutIndexes : r.withoutIndexes.way = r.way := by
  simp [way, withoutIndexes, canonical_canonical]

@[simp] theorem field_withoutIndexes : r.withoutIndexes.field = r.field := by
  simp [field, withoutIndexes, canonical_canonical]

@[simp] theorem target_withoutIndexes : r.withoutIndexes.target = r.target := by
  simp [target, withoutIndexes, canonical_canonical]

@[simp] theorem nestedSource?_withoutIndexes : r.withoutIndexes.nestedSource? = r.nestedSource? := by
  simp [nestedSource?]

@[simp] theorem standsBefore_withoutIndexes (other : Rule) :
    r.withoutIndexes.standsBefore other.withoutIndexes = r.standsBefore other := by
  rw [standsBefore, standsBefore, target_withoutIndexes, target_withoutIndexes]
  rfl

@[simp] theorem runsBefore_withoutIndexes (other : Rule) :
    r.withoutIndexes.runsBefore other.withoutIndexes = r.runsBefore other := rfl

/-- What a rule does follows its path without indexes. -/
@[simp] theorem apply_withoutIndexes (clientResolve : Bool) (data : Fields Value) :
    r.withoutIndexes.apply clientResolve data = r.apply clientResolve data := by
  have hadd : r.withoutIndexes.addTo = r.addTo := by
    funext source data holder
    simp [addTo]
  have hreplace : r.withoutIndexes.replaceIn = r.replaceIn := by
    funext source data holder
    simp [replaceIn]
  have hvacate : r.withoutIndexes.vacate = r.vacate := by
    funext source data changed
    simp [vacate]
  have hresolve : r.withoutIndexes.resolveIn = r.resolveIn := by
    funext l holder
    simp [resolveIn]
  simp [apply, hadd, hreplace, hvacate, hresolve]

def siblingName? : Option String :=
  match r.action with
  | .add (.sibling name _) | .replace (.sibling name _) => some name
  | _ => none

/-- There is no index in the path of a rule that moves a property as a whole. -/
def Direct : Prop :=
  r.siblingName?.isSome → (canonical r.path).length = 1 → r.path.length = 1

variable {r}

theorem Direct.length_iff (h : r.Direct) (hs : r.siblingName?.isSome) :
    (canonical r.path).length = 1 ↔ r.path.length = 1 := by
  refine ⟨h hs, fun hl => ?_⟩
  have hle : (canonical r.path).length ≤ r.path.length := List.length_filter_le _ _
  have hpos := List.length_pos_of_ne_nil r.canonical_ne_nil
  omega

theorem Direct.siblingAt_top (h : r.Direct) {name : String} (hs : r.siblingName? = some name) :
    (if r.withoutIndexes.path.length = 1 then some name else none) =
      if r.path.length = 1 then some name else none :=
  if_congr (h.length_iff (by rw [hs]; rfl)) rfl rfl

theorem Direct.movedProperty?_withoutIndexes (h : r.Direct) :
    r.withoutIndexes.movedProperty? = r.movedProperty? := by
  unfold movedProperty?
  rw [action_withoutIndexes]
  split
  · next name _ ha => exact h.siblingAt_top (by rw [siblingName?, ha])
  · rfl
  · rfl

theorem Direct.input?_withoutIndexes (h : r.Direct) : r.withoutIndexes.input? = r.input? := by
  unfold input?
  rw [action_withoutIndexes]
  split
  · next name _ ha => exact h.siblingAt_top (by rw [siblingName?, ha])
  · next name _ ha => exact h.siblingAt_top (by rw [siblingName?, ha])
  · rfl
  · rfl
  · rfl

end Rule

variable {m : Migration} {p : Properties} {key : String}

def withoutIndexes (m : Migration) : Migration :=
  { m with rules := m.rules.map Rule.withoutIndexes }

theorem ofRules_withoutIndexes (rules : List Rule) (clientResolve : Bool) :
    ofRules (rules.map Rule.withoutIndexes) clientResolve =
      (ofRules rules clientResolve).withoutIndexes := by
  refine congrArg (Migration.mk · clientResolve) (List.map_mergeSort fun a _ b _ => ?_).symm
  exact (a.standsBefore_withoutIndexes b).symm

theorem filter_withoutIndexes (rules : List Rule) {q : Rule → Bool}
    (hq : ∀ r ∈ rules, q r.withoutIndexes = q r) :
    (rules.map Rule.withoutIndexes).filter q = (rules.filter q).map Rule.withoutIndexes := by
  rw [List.filter_map]
  exact congrArg _ (List.filter_congr hq)

theorem rulesFor_withoutIndexes (m : Migration) (key : String) :
    m.withoutIndexes.rulesFor key = (m.rulesFor key).map Rule.withoutIndexes := by
  unfold rulesFor withoutIndexes
  rw [filter_withoutIndexes m.rules fun r _ => by rw [r.property_withoutIndexes]]
  exact (List.map_mergeSort fun a _ b _ => (a.runsBefore_withoutIndexes b).symm).symm

theorem movedFrom_withoutIndexes (m : Migration) (key : String) :
    m.withoutIndexes.movedFrom key = m.movedFrom key := by
  unfold movedFrom withoutIndexes
  rw [filter_withoutIndexes m.rules fun r _ => by rw [r.nestedSource?_withoutIndexes], List.map_map]
  exact List.map_congr_left fun r _ => r.property_withoutIndexes

theorem targets_withoutIndexes (m : Migration) : m.withoutIndexes.targets = m.targets := by
  unfold targets withoutIndexes
  rw [filter_withoutIndexes m.rules fun r _ => by rw [r.kind_withoutIndexes], List.map_map]
  exact List.map_congr_left fun r _ => r.property_withoutIndexes

theorem affects_withoutIndexes (m : Migration) (key : String) :
    m.withoutIndexes.affects key = m.affects key := by
  simp [affects, withoutIndexes, Function.comp_def]

theorem masks_withoutIndexes (h : ∀ r ∈ m.rules, r.Direct) (key : String) :
    m.withoutIndexes.masks key = m.masks key := by
  unfold masks withoutIndexes
  rw [List.any_map, Bool.eq_iff_iff, List.any_eq_true, List.any_eq_true]
  refine exists_congr fun r => and_congr_right fun hr => ?_
  rw [Function.comp_apply, (h r hr).movedProperty?_withoutIndexes]

theorem applyRules_withoutIndexes (h : ∀ r ∈ m.rules, r.Direct) (p : Properties) (key : String) :
    m.withoutIndexes.applyRules p key = m.applyRules p key := by
  have hinputs : ((m.rulesFor key).map Rule.withoutIndexes).filterMap Rule.input? =
      (m.rulesFor key).filterMap Rule.input? := by
    rw [List.filterMap_map]
    refine List.filterMap_congr fun r hr => ?_
    exact (h r (mem_rulesFor.1 hr).1).input?_withoutIndexes
  have hsources : ((m.rulesFor key).map Rule.withoutIndexes).filterMap Rule.nestedSource? =
      (m.rulesFor key).filterMap Rule.nestedSource? := by
    rw [List.filterMap_map]
    exact List.filterMap_congr fun r _ => r.nestedSource?_withoutIndexes
  have hrun : ∀ data, ((m.rulesFor key).map Rule.withoutIndexes).foldlM
      (fun data r => r.apply m.clientResolve data) data =
        (m.rulesFor key).foldlM (fun data r => r.apply m.clientResolve data) data := by
    intro data
    simp only [List.foldlM_map, Rule.apply_withoutIndexes]
  unfold applyRules
  simp only [rulesFor_withoutIndexes, hinputs, hsources]
  simp only [withoutIndexes, hrun]

theorem alike_withoutIndexes (h : ∀ r ∈ m.rules, r.Direct) (p : Properties) :
    m.withoutIndexes.Alike m p where
  movedFrom := m.movedFrom_withoutIndexes
  applyRules := applyRules_withoutIndexes h p

namespace Declaration

variable {d : Declaration} {r : Rule} {a : Action} {source : Source}

def withoutIndexes (d : Declaration) : Declaration := { d with path := canonical d.path }

def Direct (d : Declaration) : Prop :=
  d.siblingName.isSome → (canonical d.path).length = 1 → d.path.length = 1

instance (d : Declaration) : Decidable d.Direct := inferInstanceAs (Decidable (_ → _ → _))

theorem Says.withoutIndexes (h : d.Says a) : d.withoutIndexes.Says a := by
  cases h with
  | add hkind hsource hlist => exact .add hkind hsource hlist
  | replace hkind hsource hpick => exact .replace hkind hsource hpick
  | resolve hkind hsources hpick hclient hfinder hentity =>
    exact .resolve hkind hsources hpick hclient hfinder hentity
  | delete hkind hsources hpick => exact .delete hkind hsources hpick

theorem check_withoutIndexes (h : d.check = .ok r) :
    d.withoutIndexes.check = .ok r.withoutIndexes := by
  obtain ⟨hsources, hpath, ha⟩ := check_eq_ok_iff.1 h
  exact check_eq_ok_iff.2 ⟨hsources, congrArg canonical hpath, ha.withoutIndexes⟩

theorem Says.siblingName (h : d.Says r.action) {name : String} (hr : r.siblingName? = some name) :
    d.siblingName = some name := by
  unfold Rule.siblingName? at hr
  split at hr
  · next ha =>
    cases hr
    rw [ha] at h
    cases h with
    | add _ hsource _ => exact siblingName_of_sources hsource
  · next ha =>
    cases hr
    rw [ha] at h
    cases h with
    | replace _ hsource _ => exact siblingName_of_sources hsource
  · cases hr

theorem direct_of_check (h : d.check = .ok r) (hd : d.Direct) : r.Direct := by
  obtain ⟨-, hpath, ha⟩ := check_eq_ok_iff.1 h
  intro hs
  obtain ⟨name, hname⟩ := Option.isSome_iff_exists.1 hs
  rw [hpath]
  exact hd (by rw [ha.siblingName hname]; rfl)

end Declaration

/-- Rules answer alike with and without the list indexes in their paths, as long as there is none in
the path of a rule that moves a property as a whole. -/
theorem answers_withoutIndexes (declarations : List Declaration) (clientResolve : Bool)
    (hvalid : ∀ d ∈ declarations, ∃ r, d.check = .ok r) (hdirect : ∀ d ∈ declarations, d.Direct) :
    ∃ m m', ofDeclarations declarations clientResolve = .ok m ∧
      ofDeclarations (declarations.map Declaration.withoutIndexes) clientResolve = .ok m' ∧
      (∀ key, m'.affects key = m.affects key ∧ m'.masks key = m.masks key) ∧
      ∀ properties requests,
        ((PropertyView.mk properties (some m')).answers requests).run .empty =
          ((PropertyView.mk properties (some m)).answers requests).run .empty := by
  obtain ⟨rules, hrules⟩ := exists_checked hvalid
  have hpairs := Run.mapM_eq_ok_iff.1 hrules
  have hpairs' : List.Forall₂ (fun d r => Declaration.check d = .ok r)
      (declarations.map Declaration.withoutIndexes) (rules.map Rule.withoutIndexes) := by
    rw [List.forall₂_map_left_iff, List.forall₂_map_right_iff]
    exact hpairs.imp fun _ _ => Declaration.check_withoutIndexes
  have hrule : ∀ r ∈ (ofRules rules clientResolve).rules, r.Direct := by
    intro r hr
    obtain ⟨d, hd, hcheck⟩ := exists_declaration hpairs (List.mem_mergeSort.1 hr)
    exact Declaration.direct_of_check hcheck (hdirect d hd)
  refine ⟨ofRules rules clientResolve, (ofRules rules clientResolve).withoutIndexes,
    ofDeclarations_eq_ok_iff.2 ⟨rules, hpairs, rfl⟩,
    ofDeclarations_eq_ok_iff.2 ⟨_, hpairs', (ofRules_withoutIndexes rules clientResolve).symm⟩,
    fun key => ⟨affects_withoutIndexes _ key, masks_withoutIndexes hrule key⟩,
    fun properties requests => ?_⟩
  rw [(alike_withoutIndexes hrule properties).answers_eq (masks_withoutIndexes hrule)
    (affects_withoutIndexes _) (targets_withoutIndexes _)]

theorem answers_of_indexed_networks :
    let port : Declaration :=
      { kind := .replace, path := ["networks", "0", "port"], siblingName := some "port_id" }
    let address : Declaration := { kind := .delete, path := ["networks", "1", "fixed_ip"] }
    (∀ d ∈ [port, address], ∃ r, d.check = .ok r) ∧ (∀ d ∈ [port, address], d.Direct) ∧
    ∃ m m', ofDeclarations [port, address] true = .ok m ∧
      ofDeclarations ([port, address].map Declaration.withoutIndexes) true = .ok m' ∧
      (∀ key, m'.affects key = m.affects key ∧ m'.masks key = m.masks key) ∧
      ∀ properties requests,
        ((PropertyView.mk properties (some m')).answers requests).run .empty =
          ((PropertyView.mk properties (some m)).answers requests).run .empty := by
  intro port address
  have hvalid : ∀ d ∈ [port, address], ∃ r, d.check = .ok r := by
    intro d hd
    simp only [List.mem_cons, List.not_mem_nil, or_false] at hd
    obtain rfl | rfl := hd <;> exact ⟨_, rfl⟩
  have hdirect : ∀ d ∈ [port, address], d.Direct := by decide
  exact ⟨hvalid, hdirect, answers_withoutIndexes _ true hvalid hdirect⟩

/-- A rule with an index after its property does not take the sibling from the top. -/
theorem answers_of_indexed_property :
    let flavor : Declaration :=
      { kind := .replace, path := ["flavor", "0"], siblingName := some "flavor_name" }
    let properties := Properties.ofValues [("flavor_name", .text "m1.small")]
    ∃ m m', ofDeclarations [flavor] true = .ok m ∧
      ofDeclarations ([flavor].map Declaration.withoutIndexes) true = .ok m' ∧
      m.masks "flavor_name" = false ∧ m'.masks "flavor_name" = true ∧
      (((PropertyView.mk properties (some m)).answers [.property "flavor"]).run .empty).1 =
        [.ok (.value none)] ∧
      (((PropertyView.mk properties (some m')).answers [.property "flavor"]).run .empty).1 =
        [.ok (.value (some (.text "m1.small")))] := by
  refine ⟨⟨[⟨["flavor", "0"], .replace (.sibling "flavor_name" none), by decide⟩], true⟩,
    ⟨[⟨["flavor"], .replace (.sibling "flavor_name" none), by decide⟩], true⟩,
    congrArg Except.ok (ofRules_of_pairwise (by decide) true),
    congrArg Except.ok (ofRules_of_pairwise (by decide) true), by decide, by decide, ?_, ?_⟩
  · with_unfolding_all rfl
  · with_unfolding_all rfl

end Orchestration.Migration
