import Orchestration.Migration.Basic
import Orchestration.Proofs.Run

namespace Orchestration.Migration

namespace Declaration

variable {d : Declaration} {r : Rule} {a : Action}

inductive Says (d : Declaration) : Action → Prop
  | add {source : Source} (hkind : d.kind = .add) (hsource : d.sources.head? = some source)
      (hlist : ∀ v, source = .given v → ∃ items, v = .list items) : Says d (.add source)
  | replace {source : Source} (hkind : d.kind = .replace) (hsource : d.sources.head? = some source)
      (hpick : ∀ v, source = .given v → d.pick = none) : Says d (.replace source)
  | resolve {l : Lookup} (hkind : d.kind = .resolve) (hsources : d.sources = [])
      (hpick : d.pick = none) (hclient : d.client = some l.client)
      (hfinder : d.finder = some l.finder) (hentity : d.entity = l.entity) : Says d (.resolve l)
  | delete (hkind : d.kind = .delete) (hsources : d.sources = []) (hpick : d.pick = none) :
      Says d .delete

theorem checkPick_eq_ok_iff {b : Action} : d.checkPick b = .ok a ↔ d.pick = none ∧ b = a := by
  unfold checkPick
  cases d.pick with
  | none => exact ⟨fun h => ⟨rfl, Except.ok.inj h⟩, fun h => congrArg Except.ok h.2⟩
  | some path => exact ⟨nofun, nofun⟩

theorem says_of_action (h : d.action = .ok a) : d.Says a := by
  unfold action at h
  split at h
  · cases h
  · cases h
  · next source rest hkind hsources =>
    have hhead : d.sources.head? = some source := by rw [hsources]; rfl
    unfold checkAdd at h
    split at h
    · cases h
      exact .add hkind hhead fun v hv => ⟨_, (Source.given.inj hv).symm⟩
    · cases h
    · next hgiven =>
      cases h
      exact .add hkind hhead fun v hv => absurd hv (hgiven v)
  · next source rest hkind hsources =>
    have hhead : d.sources.head? = some source := by rw [hsources]; rfl
    unfold checkReplace at h
    split at h
    · obtain ⟨hpick, rfl⟩ := checkPick_eq_ok_iff.1 h
      exact .replace hkind hhead fun _ _ => hpick
    · next hgiven =>
      cases h
      exact .replace hkind hhead fun v hv => absurd hv (hgiven v)
  · next hkind =>
    unfold checkResolve at h
    split at h
    · next hclient hfinder =>
      split at h
      · next hsources =>
        obtain ⟨hpick, rfl⟩ := checkPick_eq_ok_iff.1 h
        exact .resolve hkind (List.isEmpty_iff.1 hsources) hpick hclient hfinder rfl
      · cases h
    · cases h
  · next hkind =>
    unfold checkDelete at h
    split at h
    · next hsources =>
      obtain ⟨hpick, rfl⟩ := checkPick_eq_ok_iff.1 h
      exact .delete hkind (List.isEmpty_iff.1 hsources) hpick
    · cases h

theorem Says.kind_eq (h : d.Says a) : a.kind = d.kind := by
  cases h <;> symm <;> assumption

theorem Says.action (h : d.Says a) : d.action = .ok a := by
  unfold Declaration.action
  cases h with
  | @add source hkind hsource hlist =>
    obtain ⟨rest, hsources⟩ := List.head?_eq_some_iff.1 hsource
    rw [hkind, hsources]
    cases source with
    | given v =>
      obtain ⟨items, rfl⟩ := hlist v rfl
      rfl
    | _ => rfl
  | @replace source hkind hsource hpick =>
    obtain ⟨rest, hsources⟩ := List.head?_eq_some_iff.1 hsource
    rw [hkind, hsources]
    cases source with
    | given v => exact checkPick_eq_ok_iff.2 ⟨hpick v rfl, rfl⟩
    | _ => rfl
  | resolve hkind hsources hpick hclient hfinder hentity =>
    rw [hkind]
    change d.checkResolve = _
    unfold checkResolve
    rw [hclient, hfinder, hentity, hsources]
    exact checkPick_eq_ok_iff.2 ⟨hpick, rfl⟩
  | delete hkind hsources hpick =>
    rw [hkind]
    change d.checkDelete = _
    unfold checkDelete
    rw [hsources]
    exact checkPick_eq_ok_iff.2 ⟨hpick, rfl⟩

theorem check_eq_ok_iff :
    d.check = .ok r ↔ d.sources.length ≤ 1 ∧ r.path = d.path ∧ d.Says r.action := by
  unfold check
  constructor
  · intro h
    split at h
    · cases h
    · split at h
      · cases h
      · next hsources =>
        obtain ⟨a, ha, rfl⟩ := Run.exists_of_map_ok h
        exact ⟨Nat.le_of_not_lt hsources, rfl, says_of_action ha⟩
  · obtain ⟨path, a, hpath⟩ := r
    rintro ⟨hsources, rfl, ha⟩
    rw [dif_neg hpath, if_neg (Nat.not_lt.2 hsources), ha.action]
    rfl

theorem mem_sources_iff {source : Source} : source ∈ d.sources ↔
    (∃ v, d.value = some v ∧ source = .given v) ∨
      (∃ name, d.siblingName = some name ∧ source = .sibling name d.pick) ∨
      ∃ path, d.topPath = some path ∧ source = .top path d.pick := by
  simp [sources, eq_comm]

theorem value_of_sources {v : Value} (h : d.sources.head? = some (.given v)) :
    d.value = some v := by
  simpa using mem_sources_iff.1 (List.mem_of_mem_head? h)

theorem siblingName_of_sources {name : String} {pick : Option (List String)}
    (h : d.sources.head? = some (.sibling name pick)) : d.siblingName = some name := by
  obtain ⟨other, hother, heq⟩ : ∃ other, d.siblingName = some other ∧
      Source.sibling name pick = .sibling other d.pick := by
    simpa using mem_sources_iff.1 (List.mem_of_mem_head? h)
  cases heq
  exact hother

end Declaration

variable {declarations : List Declaration}

theorem exists_declaration {rules : List Rule} {r : Rule}
    (h : List.Forall₂ (fun d r => Declaration.check d = .ok r) declarations rules) (hr : r ∈ rules) :
    ∃ d ∈ declarations, d.check = .ok r := by
  induction h with
  | nil => cases hr
  | cons hcheck _ ih =>
    cases hr with
    | head => exact ⟨_, List.mem_cons_self .., hcheck⟩
    | tail _ hr =>
      obtain ⟨d, hd, hcheck⟩ := ih hr
      exact ⟨d, List.mem_cons_of_mem _ hd, hcheck⟩

theorem exists_rule {rules : List Rule} {d : Declaration}
    (h : List.Forall₂ (fun d r => Declaration.check d = .ok r) declarations rules)
    (hd : d ∈ declarations) : ∃ r ∈ rules, d.check = .ok r := by
  induction h with
  | nil => cases hd
  | cons hcheck _ ih =>
    cases hd with
    | head => exact ⟨_, List.mem_cons_self .., hcheck⟩
    | tail _ hd =>
      obtain ⟨r, hr, hcheck⟩ := ih hd
      exact ⟨r, List.mem_cons_of_mem _ hr, hcheck⟩

theorem exists_checked (h : ∀ d ∈ declarations, ∃ r, d.check = .ok r) :
    ∃ rules, declarations.mapM Declaration.check = .ok rules := by
  induction declarations with
  | nil => exact ⟨[], rfl⟩
  | cons d rest ih =>
    obtain ⟨r, hr⟩ := h d (List.mem_cons_self ..)
    obtain ⟨rules, hrules⟩ := ih fun d hd => h d (List.mem_cons_of_mem _ hd)
    refine ⟨r :: rules, ?_⟩
    rw [List.mapM_cons]
    exact (Run.ok_bind hr).trans (Run.ok_bind hrules)

theorem ofDeclarations_eq_ok_iff {m : Migration} {clientResolve : Bool} :
    ofDeclarations declarations clientResolve = .ok m ↔
      ∃ rules, List.Forall₂ (fun d r => Declaration.check d = .ok r) declarations rules ∧
        m = ofRules rules clientResolve := by
  constructor
  · intro h
    obtain ⟨rules, hrules, h⟩ := Run.exists_of_bind_ok h
    exact ⟨rules, Run.mapM_eq_ok_iff.1 hrules, (Except.ok.inj h).symm⟩
  · rintro ⟨rules, hrules, rfl⟩
    exact Run.ok_bind (Run.mapM_eq_ok_iff.2 hrules)

end Orchestration.Migration
