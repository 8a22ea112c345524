import Mathlib.Data.String.Basic
import Orchestration.Proofs.Migration.Alike
import Orchestration.Proofs.Migration.Declarations
import Orchestration.Proofs.Sorting

namespace Orchestration

open Migration

namespace Migration

namespace Rule

def Is (kind : Kind) (target : String) (r : Rule) : Bool := r.kind = kind && r.target = target

theorem is_iff {kind : Kind} {target : String} {r : Rule} :
    r.Is kind target = true ↔ r.kind = kind ∧ r.target = target := by simp [Is]

end Rule

namespace Declaration

variable {d : Declaration} {r : Rule}

def Is (kind : Kind) (target : String) (d : Declaration) : Bool :=
  d.kind = kind && pathText (canonical d.path) = target

theorem is_of_check (h : d.check = .ok r) (kind : Kind) (target : String) :
    r.Is kind target = d.Is kind target := by
  obtain ⟨-, hpath, ha⟩ := check_eq_ok_iff.1 h
  rw [Rule.Is, Is, Rule.kind, Rule.target, ha.kind_eq, hpath]

end Declaration

theorem Rule.standsBefore_iff {a b : Rule} : a.standsBefore b = true ↔
    a.target < b.target ∨ a.target = b.target ∧ a.kind.rank ≤ b.kind.rank := by
  simp [Rule.standsBefore, Rule.runsBefore]

theorem Kind.eq_of_rank_eq {a b : Kind} (h : a.rank = b.rank) : a = b := by
  cases a <;> cases b <;> first | rfl | cases h

theorem Rule.standsBefore_total (a b : Rule) : (a.standsBefore b || b.standsBefore a) = true := by
  rw [Bool.or_eq_true, standsBefore_iff, standsBefore_iff]
  rcases lt_trichotomy a.target b.target with h | h | h
  · exact .inl (.inl h)
  · rcases le_total a.kind.rank b.kind.rank with hr | hr
    · exact .inl (.inr ⟨h, hr⟩)
    · exact .inr (.inr ⟨h.symm, hr⟩)
  · exact .inr (.inl h)

theorem Rule.standsBefore_trans (a b c : Rule) (hab : a.standsBefore b = true)
    (hbc : b.standsBefore c = true) : a.standsBefore c = true := by
  rw [standsBefore_iff] at *
  rcases hab with hab | ⟨hab, hr⟩ <;> rcases hbc with hbc | ⟨hbc, hr'⟩
  · exact .inl (hab.trans hbc)
  · exact .inl (hbc ▸ hab)
  · exact .inl (hab ▸ hbc)
  · exact .inr ⟨hab.trans hbc, hr.trans hr'⟩

theorem Rule.sameRank_eq_is (a : Rule) :
    Sorting.sameRank Rule.standsBefore a = Rule.Is a.kind a.target := by
  funext b
  rw [Bool.eq_iff_iff, Sorting.sameRank_iff, standsBefore_iff, standsBefore_iff, is_iff]
  constructor
  · rintro ⟨h | ⟨h, hr⟩, h' | ⟨h', hr'⟩⟩
    · exact absurd (h.trans h') (lt_irrefl _)
    · exact absurd h' h.ne'
    · exact absurd h h'.ne'
    · exact ⟨Kind.eq_of_rank_eq (le_antisymm hr' hr), h'⟩
  · rintro ⟨hk, ht⟩
    exact ⟨.inr ⟨ht.symm, by rw [hk]⟩, .inr ⟨ht, by rw [hk]⟩⟩

variable {declarations others : List Declaration} {rules : List Rule} {key : String}

/-- Rules in the order in which they run for a property. -/
structure Precedence (rules : List Rule) (key : String) (running : List Rule) : Prop where
  perm : running.Perm (rules.filter (·.property = key))
  sorted : running.Pairwise fun a b =>
    a.kind.rank < b.kind.rank ∨ a.kind = b.kind ∧ a.target ≤ b.target
  /-- Those of one kind and one target run in the order in which they are declared. -/
  stable : ∀ kind target, running.filter (Rule.Is kind target) =
    (rules.filter (·.property = key)).filter (Rule.Is kind target)

theorem Rule.runsBefore_total (a b : Rule) : (a.runsBefore b || b.runsBefore a) = true := by
  simpa [runsBefore] using le_total a.kind.rank b.kind.rank

theorem Rule.runsBefore_trans (a b c : Rule) (hab : a.runsBefore b = true)
    (hbc : b.runsBefore c = true) : a.runsBefore c = true := by
  simp only [runsBefore, decide_eq_true_eq] at *
  exact hab.trans hbc

theorem filter_kind_rulesFor (m : Migration) (key : String) (kind : Kind) :
    (m.rulesFor key).filter (·.kind = kind) =
      (m.rules.filter (·.property = key)).filter (·.kind = kind) := by
  refine Sorting.filter_mergeSort Rule.runsBefore_total Rule.runsBefore_trans (fun a b ha hb => ?_) _
  simp only [decide_eq_true_eq] at ha hb
  simp [Rule.runsBefore, ha, hb]

theorem filter_is_eq (l : List Rule) (kind : Kind) (target : String) :
    l.filter (Rule.Is kind target) = (l.filter (·.kind = kind)).filter (Rule.Is kind target) := by
  rw [List.filter_filter]
  refine List.filter_congr fun r _ => ?_
  cases h : r.Is kind target with
  | false => rfl
  | true => simp [(Rule.is_iff.1 h).1]

theorem filter_is_ofRules (rules : List Rule) (clientResolve : Bool) (kind : Kind)
    (target : String) :
    (ofRules rules clientResolve).rules.filter (Rule.Is kind target) =
      rules.filter (Rule.Is kind target) := by
  refine Sorting.filter_mergeSort Rule.standsBefore_total Rule.standsBefore_trans
    (fun a b ha hb => ?_) rules
  obtain ⟨hka, hta⟩ := Rule.is_iff.1 ha
  obtain ⟨hkb, htb⟩ := Rule.is_iff.1 hb
  exact Rule.standsBefore_iff.2 (.inr ⟨hta.trans htb.symm, by rw [hka, hkb]⟩)

theorem target_le_of_kind_eq {clientResolve : Bool} {a b : Rule}
    (hab : [a, b].Sublist ((ofRules rules clientResolve).rulesFor key)) (hkind : a.kind = b.kind) :
    a.target ≤ b.target := by
  -- the rules are in the order of their targets before they are sorted by kind
  have hstands := (List.pairwise_mergeSort Rule.standsBefore_trans Rule.standsBefore_total
    rules).filter (·.property = key) |>.filter (·.kind = b.kind)
  have hsub := hab.filter (·.kind = b.kind)
  rw [filter_kind_rulesFor] at hsub
  simp only [hkind, decide_true, List.filter_cons_of_pos, List.filter_nil] at hsub
  obtain h | h := Rule.standsBefore_iff.1 (List.pairwise_iff_forall_sublist.1 hstands hsub)
  · exact h.le
  · exact h.1.le

theorem precedence_rulesFor (rules : List Rule) (clientResolve : Bool) (key : String) :
    Precedence rules key ((ofRules rules clientResolve).rulesFor key) where
  perm := (List.mergeSort_perm _ _).trans ((List.mergeSort_perm _ _).filter _)
  sorted := by
    refine List.pairwise_iff_forall_sublist.2 fun {a b} hab => ?_
    have hrank := List.pairwise_iff_forall_sublist.1
      (List.pairwise_mergeSort Rule.runsBefore_trans Rule.runsBefore_total _) hab
    simp only [Rule.runsBefore, decide_eq_true_eq] at hrank
    obtain hlt | heq := Nat.lt_or_eq_of_le hrank
    · exact .inl hlt
    · have hkind := Kind.eq_of_rank_eq heq
      exact .inr ⟨hkind, target_le_of_kind_eq hab hkind⟩
  stable kind target := by
    rw [filter_is_eq, filter_kind_rulesFor, ← filter_is_eq, List.filter_comm, filter_is_ofRules,
      List.filter_comm]

def Rule.runsInOrder (a b : Rule) : Bool :=
  a.kind.rank < b.kind.rank || a.kind = b.kind && a.target ≤ b.target

theorem Rule.runsInOrder_iff {a b : Rule} : a.runsInOrder b = true ↔
    a.kind.rank < b.kind.rank ∨ a.kind = b.kind ∧ a.target ≤ b.target := by
  simp [Rule.runsInOrder]

theorem Rule.runsInOrder_total (a b : Rule) : (a.runsInOrder b || b.runsInOrder a) = true := by
  rw [Bool.or_eq_true, runsInOrder_iff, runsInOrder_iff]
  rcases lt_trichotomy a.kind.rank b.kind.rank with h | h | h
  · exact .inl (.inl h)
  · have hkind := Kind.eq_of_rank_eq h
    rcases le_total a.target b.target with ht | ht
    · exact .inl (.inr ⟨hkind, ht⟩)
    · exact .inr (.inr ⟨hkind.symm, ht⟩)
  · exact .inr (.inl h)

theorem Rule.sameRank_runsInOrder (a : Rule) :
    Sorting.sameRank Rule.runsInOrder a = Rule.Is a.kind a.target := by
  funext b
  rw [Bool.eq_iff_iff, Sorting.sameRank_iff, runsInOrder_iff, runsInOrder_iff, is_iff]
  constructor
  · rintro ⟨h | ⟨hk, ht⟩, h' | ⟨hk', ht'⟩⟩
    · exact absurd (h.trans h') (lt_irrefl _)
    · exact absurd h (by rw [hk']; exact lt_irrefl _)
    · exact absurd h' (by rw [hk]; exact lt_irrefl _)
    · exact ⟨hk', le_antisymm ht' ht⟩
  · rintro ⟨hk, ht⟩
    exact ⟨.inr ⟨hk.symm, ht.ge⟩, .inr ⟨hk, ht.le⟩⟩

theorem Precedence.unique {running others : List Rule} (h : Precedence rules key running)
    (h' : Precedence rules key others) : running = others := by
  refine Sorting.eq_of_filter_sameRank Rule.runsInOrder_total
    (h.sorted.imp Rule.runsInOrder_iff.2) (h'.sorted.imp Rule.runsInOrder_iff.2) fun a => ?_
  rw [Rule.sameRank_runsInOrder, h.stable, h'.stable]

/-- What a property comes to when rules are run, one after the other, on the properties that they
need. -/
def Rule.runFor (clientResolve : Bool) (running : List Rule)
    (value : String → Result (Option Value)) (key : String) : Result (Option Value) := do
  let data ← gather value (key :: running.filterMap Rule.input?)
  let last ← (running.foldlM (fun data (r : Rule) => r.apply clientResolve data) data |>.run []).1
  return last.get? key

theorem get?_carryOut (m : Migration) (value : String → Result (Option Value)) (key : String) :
    (fun (last, _) => last.get? key) <$> m.carryOut value key =
      Rule.runFor m.clientResolve (m.rulesFor key) value key :=
  calc (fun (last, _) => last.get? key) <$> m.carryOut value key
    _ = (fun last => last.get? key) <$> Prod.fst <$> m.carryOut value key := by
      cases m.carryOut value key <;> rfl
    _ = Rule.runFor m.clientResolve (m.rulesFor key) value key := by
      rw [fst_carryOut, map_bind]
      rfl

/-- What a property that is not known yet comes to when some rules are run for it, once those that
take parts out of it are migrated. Without the value of a parameter it is what they leave of it. -/
def readInOrder (m : Migration) (p : Properties) (running : List Rule) (tables : Tables)
    (key : String) : Result (Option Value) :=
  match ((m.movedFrom key).forM fun other => discard (m.migrate p other)).run
    { tables with inProgress := key :: tables.inProgress } with
  | (.error e, _) => .error e
  | (.ok (), left) =>
    match Rule.runFor m.clientResolve running (loaded p left) key with
    | .error (.bare (.parameterMissing _)) => loaded p left key
    | outcome => outcome

theorem applyOrLoad_run_eq (m : Migration) (p : Properties) (key : String) (left : Tables) :
    ((applyOrLoad m p key).run left).1 =
      match Rule.runFor m.clientResolve (m.rulesFor key) (loaded p left) key with
      | .error (.bare (.parameterMissing _)) => loaded p left key
      | outcome => outcome := by
  obtain ⟨after, hrun, -, -, hloaded⟩ := @applyRules_run left m p key
  rw [get?_carryOut] at hrun
  rw [applyOrLoad_run, hrun]
  cases hout : Rule.runFor m.clientResolve (m.rulesFor key) (loaded p left) key with
  | ok v => rfl
  | error e =>
    -- rules that fail leave what is loaded of the property as it is
    rw [← get?_carryOut] at hout
    have hsame := hloaded key
    rw [Run.error_of_map hout] at hsame
    cases e with
    | bare cause =>
      cases cause with
      | parameterMissing name => exact hsame
      | _ => rfl
    | _ => rfl

/-- A property that is not known yet comes to what its rules make of it in their order. -/
theorem migrate_run_eq {m : Migration} {p : Properties} {tables : Tables}
    (hcache : tables.cache.get? key = none) (hkey : key ∉ tables.inProgress) :
    ((m.migrate p key).run tables).1 = m.readInOrder p (m.rulesFor key) tables key := by
  rw [migrate_run_of_new hcache hkey, guarded_run, readInOrder]
  dsimp only
  cases hmovers : ((m.movedFrom key).forM fun other => discard (m.migrate p other)).run
      { tables with inProgress := key :: tables.inProgress } with
  | mk outcome left =>
    cases outcome with
    | error e => rw [Run.bind_error hmovers]
    | ok u => rw [Run.bind_ok hmovers, applyOrLoad_run_eq]

theorem read_run_eq {m : Migration} {p : Properties} {tables : Tables}
    (hcache : tables.cache.get? key = none) (hkey : key ∉ tables.inProgress) :
    (((PropertyView.mk p (some m)).read key).run tables).1 =
      if m.masks key then .ok none
      else if m.affects key then
        (·.filter (!·.isNull)) <$> m.readInOrder p (m.rulesFor key) tables key
      else p.value key := by
  unfold PropertyView.read
  dsimp only
  split
  · rfl
  · split
    · rw [bind_pure_comp, Run.map_run, migrate_run_eq hcache hkey]
    · rfl

theorem ofRules_congr {rules others : List Rule} (clientResolve : Bool)
    (h : ∀ kind target, rules.filter (Rule.Is kind target) = others.filter (Rule.Is kind target)) :
    ofRules rules clientResolve = ofRules others clientResolve := by
  refine congrArg (Migration.mk · clientResolve)
    (Sorting.mergeSort_congr Rule.standsBefore_total Rule.standsBefore_trans fun a => ?_)
  rw [Rule.sameRank_eq_is]
  exact h a.kind a.target

theorem filter_is_of_check {rules : List Rule} (h : declarations.mapM Declaration.check = .ok rules)
    (kind : Kind) (target : String) :
    (declarations.filter (Declaration.Is kind target)).mapM Declaration.check =
      .ok (rules.filter (Rule.Is kind target)) := by
  induction declarations generalizing rules with
  | nil =>
    cases h
    rfl
  | cons d rest ih =>
    rw [List.mapM_cons] at h
    obtain ⟨r, hr, h⟩ := Run.exists_of_bind_ok h
    obtain ⟨rules, hrules, h⟩ := Run.exists_of_bind_ok h
    cases h
    have hrest := ih hrules
    have his := Declaration.is_of_check hr kind target
    cases hd : d.Is kind target with
    | false =>
      rw [List.filter_cons_of_neg (by simp [hd]), List.filter_cons_of_neg (by simp [his, hd]), hrest]
    | true =>
      rw [List.filter_cons_of_pos hd, List.filter_cons_of_pos (his.trans hd), List.mapM_cons]
      exact (Run.ok_bind hr).trans (Run.ok_bind hrest)

theorem mem_of_filter_is (h : ∀ kind target, declarations.filter (Declaration.Is kind target) =
    others.filter (Declaration.Is kind target)) {d : Declaration} (hd : d ∈ others) :
    d ∈ declarations := by
  have hself : d ∈ others.filter (Declaration.Is d.kind (pathText (canonical d.path))) :=
    List.mem_filter.2 ⟨hd, by simp [Declaration.Is]⟩
  rw [← h] at hself
  exact (List.mem_filter.1 hself).1

/-- Valid declarations make migrations that answer alike in any order in which those of one kind and
one target keep theirs. The rules of a property run by kind, then by target, then as declared, each
on what the one before it leaves: so a property is migrated, and read, whatever was read before. -/
theorem answers_of_reordering (declarations others : List Declaration) (clientResolve : Bool)
    (hvalid : ∀ d ∈ declarations, ∃ r, d.check = .ok r)
    (hsame : ∀ kind target, declarations.filter (Declaration.Is kind target) =
      others.filter (Declaration.Is kind target)) :
    ∃ rules m m', declarations.mapM Declaration.check = .ok rules ∧
      ofDeclarations declarations clientResolve = .ok m ∧
      ofDeclarations others clientResolve = .ok m' ∧
      (∀ key, m.affects key = m'.affects key ∧ m.masks key = m'.masks key) ∧
      (∀ properties, (PropertyView.mk properties (some m)).keys =
        (PropertyView.mk properties (some m')).keys) ∧
      (∀ properties requests, ((PropertyView.mk properties (some m)).answers requests).run .empty =
        ((PropertyView.mk properties (some m')).answers requests).run .empty) ∧
      ∀ key, Precedence rules key (m.rulesFor key) ∧
        ∀ running, Precedence rules key running → ∀ properties tables,
          tables.cache.get? key = none → key ∉ tables.inProgress →
          ((m.migrate properties key).run tables).1 = m.readInOrder properties running tables key ∧
          (((PropertyView.mk properties (some m)).read key).run tables).1 =
            if m.masks key then .ok none
            else if m.affects key then
              (·.filter (!·.isNull)) <$> m.readInOrder properties running tables key
            else properties.value key := by
  obtain ⟨rules, hrules⟩ := exists_checked hvalid
  obtain ⟨rules', hrules'⟩ := exists_checked fun d hd => hvalid d (mem_of_filter_is hsame hd)
  have hm : ofRules rules clientResolve = ofRules rules' clientResolve := by
    refine ofRules_congr clientResolve fun kind target => ?_
    have h := filter_is_of_check hrules kind target
    rw [hsame, filter_is_of_check hrules'] at h
    exact (Except.ok.inj h).symm
  refine ⟨rules, ofRules rules clientResolve, ofRules rules' clientResolve, hrules,
    Run.ok_bind hrules, Run.ok_bind hrules', ?_⟩
  rw [← hm]
  refine ⟨fun _ => ⟨rfl, rfl⟩, fun _ => rfl, fun _ _ => rfl, fun key => ?_⟩
  have hprecedence := precedence_rulesFor rules clientResolve key
  refine ⟨hprecedence, fun running hrunning properties tables hcache hkey => ?_⟩
  rw [hrunning.unique hprecedence]
  exact ⟨migrate_run_eq hcache hkey, read_run_eq hcache hkey⟩

/-- Two networks are added to a property in the order of their declarations, and then the ports of
both are deleted, wherever the deletion is declared. -/
theorem answers_of_delete_first :
    let network (name : String) : Value := .map [("name", .text name), ("port", .text "p")]
    let addFirst : Declaration :=
      { kind := .add, path := ["networks"], value := some (.list [network "a"]) }
    let addSecond : Declaration :=
      { kind := .add, path := ["networks"], value := some (.list [network "b"]) }
    let delete : Declaration := { kind := .delete, path := ["networks", "0", "port"] }
    let declarations := [addFirst, addSecond, delete]
    let others := [delete, addFirst, addSecond]
    (∀ d ∈ declarations, ∃ r, d.check = .ok r) ∧
    (∀ kind target, declarations.filter (Declaration.Is kind target) =
      others.filter (Declaration.Is kind target)) ∧
    ∃ rules m m', declarations.mapM Declaration.check = .ok rules ∧
      ofDeclarations declarations true = .ok m ∧ ofDeclarations others true = .ok m' ∧
      (∀ properties requests, ((PropertyView.mk properties (some m)).answers requests).run .empty =
        ((PropertyView.mk properties (some m')).answers requests).run .empty) ∧
      Precedence rules "networks" (m.rulesFor "networks") ∧
      (((PropertyView.mk (.ofValues []) (some m)).read "networks").run .empty).1 =
        .ok (some (.list [.map [("name", .text "a")], .map [("name", .text "b")]])) ∧
      (((PropertyView.mk (.ofValues []) (some m')).answers [.property "networks"]).run .empty).1 =
        [.ok (.value (some (.list [.map [("name", .text "a")], .map [("name", .text "b")]])))] := by
  intro network addFirst addSecond delete declarations others
  have hvalid : ∀ d ∈ declarations, ∃ r, d.check = .ok r := by
    intro d hd
    simp only [declarations, List.mem_cons, List.not_mem_nil, or_false] at hd
    obtain rfl | rfl | rfl := hd <;> exact ⟨_, rfl⟩
  have hsame : ∀ kind target, declarations.filter (Declaration.Is kind target) =
      others.filter (Declaration.Is kind target) := by
    intro kind target
    have hfirst : addFirst.Is kind target = addSecond.Is kind target := rfl
    have hapart : delete.Is kind target = true → addFirst.Is kind target = false := by
      simp only [Declaration.Is, delete, addFirst, Bool.and_eq_true, decide_eq_true_eq]
      rintro ⟨rfl, -⟩
      rfl
    simp only [declarations, others, List.filter_cons, List.filter_nil]
    cases hd : delete.Is kind target with
    | false => rfl
    | true => rw [← hfirst, hapart hd]; rfl
  refine ⟨hvalid, hsame, ?_⟩
  obtain ⟨rules, m, m', hrules, hm, hm', -, -, hanswers, horder⟩ :=
    answers_of_reordering declarations others true hvalid hsame
  obtain ⟨hprecedence, hreads⟩ := horder "networks"
  let running : List Rule := [⟨["networks"], .add (.given (.list [network "a"])), by decide⟩,
    ⟨["networks"], .add (.given (.list [network "b"])), by decide⟩,
    ⟨["networks", "0", "port"], .delete, by decide⟩]
  have hmigration : ofDeclarations declarations true = .ok ⟨running, true⟩ :=
    congrArg Except.ok (ofRules_of_pairwise (by decide) true)
  cases hm.symm.trans hmigration
  have hrunning : rulesFor ⟨running, true⟩ "networks" = running :=
    List.mergeSort_of_pairwise (by decide)
  have hread := (hreads running (hrunning ▸ hprecedence) (.ofValues []) .empty rfl nofun).2
  have hnetworks : (((PropertyView.mk (.ofValues []) (some ⟨running, true⟩)).read "networks").run
      .empty).1 = .ok (some (.list [.map [("name", .text "a")], .map [("name", .text "b")]])) := by
    rw [hread]
    with_unfolding_all rfl
  refine ⟨rules, _, m', hrules, hm, hm', hanswers, hprecedence, hnetworks, ?_⟩
  rw [← hanswers, PropertyView.answers_cons (Run.map_run _)]
  exact congrArg (fun outcome => [PropertyView.Answer.value <$> outcome]) hnetworks

end Migration

end Orchestration
