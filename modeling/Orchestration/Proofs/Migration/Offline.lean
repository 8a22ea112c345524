import Mathlib
import Orchestration.Proofs.Fields
import Orchestration.Proofs.Migration.Clients

namespace Orchestration

open Migration (Reading Tables Declaration Fixes Tracks)

namespace PropertyView

variable {m : Migration} {p : Properties} {tables tables' : Tables} {key : String}

def answerOver (view : PropertyView) (names : List String) : Request → Reading Answer
  | .property key => .value <$> view.read key
  | .all => .fields <$> names.foldlM (collectOne view.read) []

def answersOver (view : PropertyView) (names : List String) (requests : List Request) :
    StateM Tables (List (Result Answer)) :=
  requests.mapM fun request => (view.answerOver names request).run

theorem answerOver_keys (view : PropertyView) : view.answerOver view.keys = view.answer := by
  funext request
  cases request <;> rfl

/-- What only one of two views lists is hidden there, or nothing is moved out of it. -/
def ListsIdly (view view' : PropertyView) : Prop :=
  ∀ m ∈ view.migration, ∀ key ∈ view.keys, key ∉ view'.keys → m.masks key ∨ m.movedFrom key = []

section

variable {f g : Request → Reading Answer} {requests : List Request}

theorem mapM_run_cons (f : Request → Reading Answer) (request : Request) (requests : List Request)
    (tables : Tables) :
    ((request :: requests).mapM fun request => (f request).run).run tables =
      let after := ((f request).run tables).2
      (((f request).run tables).1 :: ((requests.mapM fun request => (f request).run).run after).1,
        ((requests.mapM fun request => (f request).run).run after).2) := by
  rw [List.mapM_cons]
  exact (Run.bind_state rfl).trans (Run.bind_state rfl)

theorem answers_of_tracks (h : ∀ request ∈ requests, m.Tracks p (f request) (g request))
    (ha : m.Agree p tables tables') :
    ((requests.mapM fun request => (f request).run).run tables).1 =
      ((requests.mapM fun request => (g request).run).run tables').1 := by
  induction requests generalizing tables tables' with
  | nil => rfl
  | cons request requests ih =>
    obtain ⟨hout, hafter⟩ := h request (List.mem_cons_self ..) _ _ ha
    rw [mapM_run_cons, mapM_run_cons]
    exact congrArg₂ _ hout (ih (fun r hr => h r (List.mem_cons_of_mem _ hr)) hafter)

end

theorem faithful_empty : m.Faithful p .empty := ⟨fun _ => rfl, fun _ h => nomatch h⟩

section

variable (hnull : ∀ key, (fun v => v.filter (!·.isNull)) <$> p.value key = p.value key)

include hnull

theorem tracks_filter_migrate (hs : m.Still p key) :
    m.Tracks p ((fun v => v.filter (!·.isNull)) <$> m.migrate p key) (liftM (p.value key)) := by
  intro tables tables' h
  obtain ⟨after, hrun, hafter⟩ := hs.migrateWith_run h.left (m.rules.length + 1)
  rw [Run.map_run, show (m.migrate p key).run tables = _ from hrun, Run.lift_run]
  exact ⟨hnull key, h.of_remembers hs hafter⟩

variable (hm : m.clientResolve = false)

include hm

theorem tracks_read (key : String) : m.Tracks p ((PropertyView.mk p (some m)).read key)
    ((PropertyView.mk p (some m.withoutClients)).read key) := by
  simp only [read, m.masks_withoutClients key]
  cases m.masks key with
  | true => exact .lift (pure none)
  | false =>
    simp only [Bool.false_eq_true, ↓reduceIte, (Migration.alike_withoutClients hm p).migrate,
      bind_pure_comp]
    cases ha : m.withoutClients.affects key with
    | true =>
      rw [Migration.affects_of_withoutClients ha]
      exact (Migration.tracks_migrateWith m p _ key).map _
    | false =>
      cases m.affects key with
      | true => exact tracks_filter_migrate hnull (Migration.still_of_not_affects hm ha)
      | false => exact .lift (p.value key)

theorem tracks_collectOne (found : Fields Value) (key : String) :
    m.Tracks p (collectOne (PropertyView.mk p (some m)).read found key)
      (collectOne (PropertyView.mk p (some m.withoutClients)).read found key) := by
  refine (tracks_read hnull hm key).bind fun v => ?_
  cases v <;> exact .lift (pure _)

theorem tracks_answerOver (names : List String) (request : Request) :
    m.Tracks p ((PropertyView.mk p (some m)).answerOver names request)
      ((PropertyView.mk p (some m.withoutClients)).answerOver names request) := by
  cases request with
  | property key => exact (tracks_read hnull hm key).map _
  | all => exact (Tracks.foldlM (tracks_collectOne hnull hm) names []).map _

end

section

variable {α β : Type}

theorem tracks_foldlM_filter {f g : β → α → Reading β} {q : α → Bool} {as : List α}
    (h : ∀ b a, m.Tracks p (f b a) (g b a))
    (hskip : ∀ a ∈ as, q a = false → ∀ b, m.Tracks p (f b a) (pure b)) (b : β) :
    m.Tracks p (as.foldlM f b) ((as.filter q).foldlM g b) := by
  induction as generalizing b with
  | nil => exact .lift (pure b)
  | cons a as ih =>
    have hrest := ih fun c hc => hskip c (List.mem_cons_of_mem _ hc)
    cases ha : q a with
    | true =>
      rw [List.filter_cons_of_pos ha]
      exact (h b a).bind hrest
    | false =>
      rw [List.filter_cons_of_neg (by simp [ha]), ← pure_bind b fun b => (as.filter q).foldlM g b]
      exact (hskip a (List.mem_cons_self ..) ha b).bind hrest

end

theorem kind_of_notMem_keys (hk : key ∉ (PropertyView.mk p (some m.withoutClients)).keys) :
    ∀ r ∈ m.rulesFor key, r.kind = .resolve ∨ r.kind = .delete := by
  intro r hr
  obtain ⟨hr, hproperty⟩ := Migration.mem_rulesFor.1 hr
  by_contra hkind
  obtain ⟨hresolve, hdelete⟩ := not_or.1 hkind
  refine hk (mem_keys.2 (.inr ⟨_, rfl, List.mem_map.2 ⟨r, ?_, hproperty⟩⟩))
  exact List.mem_filter.2 ⟨List.mem_filter.2 ⟨hr, by simpa using hresolve⟩, by simpa using hdelete⟩

section

variable {stack : Stack} {s : Option Snippet} (hp : Properties.ofSnippet stack s = .ok p)
  (hm : m.clientResolve = false)

include hp

theorem value_of_notMem_keys
    (hk : key ∉ (PropertyView.mk p (some m.withoutClients)).keys) : p.value key = .ok none :=
  Properties.value_of_notMem hp fun hn => hk (mem_keys.2 (.inl hn))

include hm

theorem still_of_notMem_keys (hk : key ∉ (PropertyView.mk p (some m.withoutClients)).keys)
    (hmoved : m.movedFrom key = []) : m.Still p key :=
  Migration.still_of_kinds (kind_of_notMem_keys hk) hm hmoved fun _ => value_of_notMem_keys hp hk

theorem tracks_read_of_notMem_keys
    (hk : key ∉ (PropertyView.mk p (some m.withoutClients)).keys)
    (hidle : m.masks key ∨ m.movedFrom key = []) :
    m.Tracks p ((PropertyView.mk p (some m)).read key) (liftM (.ok none : Result _)) := by
  simp only [read, bind_pure_comp]
  cases hmask : m.masks key with
  | true => exact .lift (pure none)
  | false =>
    have hmoved : m.movedFrom key = [] := hidle.resolve_left (by simp [hmask])
    have hvalue := value_of_notMem_keys hp hk
    cases m.affects key with
    | true =>
      rw [← hvalue]
      exact tracks_filter_migrate (Properties.filter_value hp) (still_of_notMem_keys hp hm hk hmoved)
    | false =>
      simp only [hvalue]
      exact .lift (.ok none)

theorem tracks_collectOne_of_notMem_keys
    (hk : key ∉ (PropertyView.mk p (some m.withoutClients)).keys)
    (hidle : m.masks key ∨ m.movedFrom key = []) (found : Fields Value) :
    m.Tracks p (collectOne (PropertyView.mk p (some m)).read found key) (pure found) := by
  have hone := (tracks_read_of_notMem_keys hp hm hk hidle).bind
    (f := fun v => v.elim (pure found) fun v => pure (found.insert key v))
    (g := fun v => v.elim (pure found) fun v => pure (found.insert key v))
    fun v => by cases v <;> exact .lift (pure _)
  refine Eq.subst (motive := fun x => m.Tracks p x (pure found)) ?_ hone
  refine bind_congr fun v => ?_
  cases v <;> rfl

theorem tracks_answer
    (hidly : (PropertyView.mk p (some m)).ListsIdly (.mk p (some m.withoutClients)))
    (horder : (PropertyView.mk p (some m)).keys.filter
      (· ∈ (PropertyView.mk p (some m.withoutClients)).keys) =
        (PropertyView.mk p (some m.withoutClients)).keys) (request : Request) :
    m.Tracks p ((PropertyView.mk p (some m)).answer request)
      ((PropertyView.mk p (some m.withoutClients)).answer request) := by
  have hnull := Properties.filter_value hp
  cases request with
  | property key => exact (tracks_read hnull hm key).map _
  | all =>
    refine Tracks.map _ ?_
    unfold readAll collect
    rw [← horder]
    refine tracks_foldlM_filter (tracks_collectOne hnull hm) (fun key hk hk' found => ?_) []
    have hk' : key ∉ (PropertyView.mk p (some m.withoutClients)).keys := by simpa using hk'
    exact tracks_collectOne_of_notMem_keys hp hm hk' (hidly m rfl key hk hk') found

end

section

variable {values : String → Result (Option Value)} {names : List String} {found all : Fields Value}

theorem collectOne_eq (found : Fields Value) (key : String) : collectOne values found key =
    (fun v => v.elim found (found.insert key)) <$> values key := by
  unfold collectOne
  cases values key with
  | error e => rfl
  | ok v => cases v <;> rfl

theorem collect_eq_ok (h : names.foldlM (collectOne values) found = .ok all)
    (hfound : found.keys.Nodup) :
    (∀ key ∈ names, ∃ v, values key = .ok v) ∧ all.keys.Nodup ∧ ∀ key, all.get? key =
      ((if key ∈ names then (values key).toOption.join else none) <|> found.get? key) := by
  induction names generalizing found with
  | nil =>
    cases h
    exact ⟨nofun, hfound, fun key => by simp⟩
  | cons name names ih =>
    rw [List.foldlM_cons, collectOne_eq] at h
    obtain ⟨next, hnext, h⟩ := Run.exists_of_bind_ok h
    obtain ⟨v, hv, rfl⟩ := Run.exists_of_map_ok hnext
    obtain ⟨hvalues, hall, hget⟩ := ih h (by
      cases v with
      | none => exact hfound
      | some v => exact Fields.nodup_keys_insert hfound name v)
    refine ⟨List.forall_mem_cons.2 ⟨⟨v, hv⟩, hvalues⟩, hall, fun key => ?_⟩
    have hnext : (v.elim found (found.insert name)).get? key =
        ((if key = name then v else none) <|> found.get? key) := by
      cases v with
      | none => simp
      | some v =>
        by_cases hk : key = name
        · simp [Fields.get?_insert, hk]
        · simp [Fields.get?_insert, hk, Ne.symm hk]
    rw [hget key, hnext]
    by_cases hk : key = name
    · subst hk
      by_cases hn : key ∈ names <;> cases v <;> simp [hn, hv, Except.toOption]
    · simp [hk]

theorem exists_collect (h : ∀ key ∈ names, ∃ v, values key = .ok v) (found : Fields Value) :
    ∃ all, names.foldlM (collectOne values) found = .ok all := by
  induction names generalizing found with
  | nil => exact ⟨found, rfl⟩
  | cons name names ih =>
    obtain ⟨⟨v, hv⟩, hrest⟩ := List.forall_mem_cons.1 h
    rw [List.foldlM_cons, collectOne_eq, hv]
    exact ih hrest _

theorem exists_collect_perm {others : List String}
    (h : names.foldlM (collectOne values) [] = .ok all)
    (hothers : ∀ key ∈ others, key ∉ names → values key = .ok none)
    (hnames : ∀ key ∈ names, key ∉ others → ∀ v, values key = .ok v → v = none) :
    ∃ all', others.foldlM (collectOne values) [] = .ok all' ∧ all.Perm all' := by
  obtain ⟨hvalues, hkeys, hget⟩ := collect_eq_ok h List.nodup_nil
  have hvalues' : ∀ key ∈ others, ∃ v, values key = .ok v := by
    intro key hk
    by_cases hn : key ∈ names
    · exact hvalues key hn
    · exact ⟨none, hothers key hk hn⟩
  obtain ⟨all', h'⟩ := exists_collect hvalues' []
  obtain ⟨-, hkeys', hget'⟩ := collect_eq_ok h' List.nodup_nil
  refine ⟨all', h', Fields.perm_of_get?_eq hkeys hkeys' fun key => ?_⟩
  rw [hget, hget']
  congr 1
  by_cases hn : key ∈ names <;> by_cases ho : key ∈ others
  · simp [hn, ho]
  · obtain ⟨v, hv⟩ := hvalues key hn
    simp [hn, ho, hv, hnames key hn ho v hv, Except.toOption]
  · simp [hn, ho, hothers key ho hn, Except.toOption]
  · simp [hn, ho]

end

/-- If properties are given by one result, so are they by the other, in whatever order. -/
def UpToOrder (r r' : Result Answer) : Prop :=
  ∀ all, r = .ok (.fields all) → ∃ all', r' = .ok (.fields all') ∧ all.Perm all'

/-- Views that answer alike except for what they list, the first of which asks nobody. -/
structure DifferInListing (view view' : PropertyView) : Prop where
  silent : ∀ requests, ((view.answers requests).run .empty).2.queries = []
  over_keys : ∀ requests, ((view.answers requests).run .empty).1 =
    ((view'.answersOver view.keys requests).run .empty).1
  /-- Properties that are read one by one are the same. So are all of them at once, if both views list
  the same names in the same order, apart from some that the first one lists idly. -/
  same : ∀ requests, (.all ∈ requests →
      view.ListsIdly view' ∧ view.keys.filter (· ∈ view'.keys) = view'.keys) →
    ((view.answers requests).run .empty).1 = ((view'.answers requests).run .empty).1
  /-- Where it does not count what was read before, neither does the order of the names, and a name
  that only the first view lists has nothing. -/
  untangled : (∀ m ∈ view.migration, m.Untangled) → ∃ one one' : Request → Result Answer,
    (∀ requests, ((view.answers requests).run .empty).1 = requests.map one ∧
      ((view'.answers requests).run .empty).1 = requests.map one') ∧
    (∀ key, one (.property key) = one' (.property key)) ∧ UpToOrder (one .all) (one' .all) ∧
    (view.ListsIdly view' → UpToOrder (one' .all) (one .all))

theorem mem_keys_of_withoutClients (h : key ∈ (PropertyView.mk p (some m.withoutClients)).keys) :
    key ∈ (PropertyView.mk p (some m)).keys := by
  rw [mem_keys] at *
  refine h.imp id ?_
  rintro ⟨m', ⟨⟩, hk⟩
  obtain ⟨r, hr, rfl⟩ := List.mem_map.1 hk
  obtain ⟨hr, hkind⟩ := List.mem_filter.1 hr
  exact ⟨m, rfl, List.mem_map_of_mem (List.mem_filter.2 ⟨(List.mem_filter.1 hr).1, hkind⟩)⟩

theorem answers_of_determines {view : PropertyView} {one : Request → Result Answer}
    (h : ∀ request, view.Determines (view.answer request) (one request)) (requests : List Request) :
    ((view.answers requests).run .empty).1 = requests.map one := by
  suffices hall : ∀ tables, view.Settled tables →
      ((view.answers requests).run tables).1 = requests.map one from hall .empty settled_empty
  induction requests with
  | nil => exact fun _ _ => rfl
  | cons request requests ih =>
    intro tables hs
    obtain ⟨after, hrun, hafter⟩ := h request tables hs
    rw [answers_cons hrun]
    exact congrArg _ (ih after hafter)

section

variable {stack : Stack} {s : Option Snippet} (hp : Properties.ofSnippet stack s = .ok p)
  (hm : m.clientResolve = false)

include hp hm

theorem fresh_withoutClients : (PropertyView.mk p (some m)).fresh =
    (PropertyView.mk p (some m.withoutClients)).fresh := by
  funext key
  exact (tracks_read (Properties.filter_value hp) hm key _ _ (.refl faithful_empty)).1

theorem eq_none_of_fresh (hu : m.Untangled)
    (hk : key ∉ (PropertyView.mk p (some m.withoutClients)).keys) {v : Option Value}
    (h : (PropertyView.mk p (some m)).fresh key = .ok v) : v = none := by
  have hvalue := value_of_notMem_keys hp hk
  rw [fresh_eq (by rintro m ⟨⟩; exact hu), outcome] at h
  dsimp only at h
  split at h
  · exact (Except.ok.inj h).symm
  · split at h
    · obtain ⟨w, hw, rfl⟩ := Run.exists_of_map_ok h
      rw [Migration.eq_none_of_outcome (kind_of_notMem_keys hk) hm hu.acyclic hvalue hw]
      rfl
    · rw [hvalue] at h
      exact (Except.ok.inj h).symm

theorem upToOrder_of_untangled (hu : m.Untangled) :
    UpToOrder ((PropertyView.mk p (some m)).freshAnswer .all)
      ((PropertyView.mk p (some m.withoutClients)).freshAnswer .all) := by
  intro all h
  obtain ⟨found, hfound, hall⟩ := Run.exists_of_map_ok h
  cases hall
  obtain ⟨all', hall', hperm⟩ := exists_collect_perm hfound
    (fun key hk hk' => absurd (mem_keys_of_withoutClients hk) hk')
    (fun key _ hk v hv => eq_none_of_fresh hp hm hu hk hv)
  rw [fresh_withoutClients hp hm] at hall'
  exact ⟨all', congrArg (Answer.fields <$> ·) hall', hperm⟩

theorem upToOrder_of_listsIdly
    (hidly : (PropertyView.mk p (some m)).ListsIdly (.mk p (some m.withoutClients))) :
    UpToOrder ((PropertyView.mk p (some m.withoutClients)).freshAnswer .all)
      ((PropertyView.mk p (some m)).freshAnswer .all) := by
  intro all h
  obtain ⟨found, hfound, hall⟩ := Run.exists_of_map_ok h
  cases hall
  rw [← fresh_withoutClients hp hm] at hfound
  have hidle : ∀ key ∈ (PropertyView.mk p (some m)).keys,
      key ∉ (PropertyView.mk p (some m.withoutClients)).keys →
        (PropertyView.mk p (some m)).fresh key = .ok none := fun key hk hk' =>
    (tracks_read_of_notMem_keys hp hm hk' (hidly m rfl key hk hk') _ _ (.refl faithful_empty)).1
  obtain ⟨all', hall', hperm⟩ := exists_collect_perm hfound hidle
    (fun key hk hk' => absurd (mem_keys_of_withoutClients hk) hk')
  exact ⟨all', congrArg (Answer.fields <$> ·) hall', hperm⟩

theorem differInListing :
    DifferInListing (.mk p (some m)) (.mk p (some m.withoutClients)) where
  silent requests := by
    refine Fixes.answers ?_ requests .empty
    rintro _ ⟨⟩ key
    exact Migration.fixes_queries_migrateWith hm p _ key
  over_keys requests := by
    have htracks : ∀ request ∈ requests, m.Tracks p ((PropertyView.mk p (some m)).answer request)
        ((PropertyView.mk p (some m.withoutClients)).answerOver
          (PropertyView.mk p (some m)).keys request) := fun request _ => by
      rw [← answerOver_keys]
      exact tracks_answerOver (Properties.filter_value hp) hm _ request
    exact answers_of_tracks htracks (.refl faithful_empty)
  same requests h := by
    have htracks : ∀ request ∈ requests, m.Tracks p ((PropertyView.mk p (some m)).answer request)
        ((PropertyView.mk p (some m.withoutClients)).answer request) := by
      rintro (key | _) hrequest
      · exact (tracks_read (Properties.filter_value hp) hm key).map _
      · exact tracks_answer hp hm (h hrequest).1 (h hrequest).2 .all
    exact answers_of_tracks htracks (.refl faithful_empty)
  untangled h := by
    have hu : m.Untangled := h m rfl
    refine ⟨_, _, fun requests => ⟨answers_of_determines (determines_answer h) requests,
      answers_of_determines (determines_answer ?_) requests⟩, fun key => ?_,
      upToOrder_of_untangled hp hm hu, upToOrder_of_listsIdly hp hm⟩
    · rintro m' ⟨⟩
      exact Migration.untangled_withoutClients hu
    · rw [freshAnswer, freshAnswer, fresh_withoutClients hp hm]

end

/-- Valid declarations whose clients may not be asked answer like those that are left without the
ones that ask clients, except for what they list. -/
theorem answers_without_clients (declarations : List Declaration)
    (hvalid : ∀ d ∈ declarations, ∃ r, d.check = .ok r) {stack : Stack} {s : Option Snippet}
    (hp : Properties.ofSnippet stack s = .ok p) :
    ∃ m m', Migration.ofDeclarations declarations false = .ok m ∧
      Migration.ofDeclarations (declarations.filter (·.kind ≠ .resolve)) true = .ok m' ∧
      DifferInListing ⟨p, some m⟩ ⟨p, some m'⟩ := by
  obtain ⟨rules, hrules⟩ := Migration.exists_checked hvalid
  have hpairs := Run.mapM_eq_ok_iff.1 hrules
  have hleft : List.Forall₂ (fun d r => Declaration.check d = .ok r)
      (declarations.filter (·.kind ≠ .resolve)) (rules.filter (·.kind ≠ .resolve)) := by
    refine List.rel_filter (fun d r hcheck => ?_) hpairs
    have hkind : r.kind = d.kind := (Declaration.check_eq_ok_iff.1 hcheck).2.2.kind_eq
    simp [hkind]
  refine ⟨Migration.ofRules rules false, (Migration.ofRules rules false).withoutClients,
    Migration.ofDeclarations_eq_ok_iff.2 ⟨rules, hpairs, rfl⟩,
    Migration.ofDeclarations_eq_ok_iff.2 ⟨_, hleft, (Migration.ofRules_withoutClients rules).symm⟩,
    differInListing hp rfl⟩

theorem answers_of_skipped_network : ∃ t stack p,
    Template.ofValue (.map [("heat_template_version", .text "2016-10-14")]) = .ok t ∧
      Stack.make ⟨"s"⟩ "s" t [] (StaticResources.toResources []) = .ok stack ∧
      Properties.ofSnippet stack (some (.map [("networks", .list [.map [("network", .text "n"),
        ("port_id", .text "p")]])])) = .ok p ∧
      let network : Declaration :=
        { kind := .resolve, path := ["networks", "network"],
          client := some ⟨fun _ _ v => pure v⟩, finder := some "network" }
      let port : Declaration :=
        { kind := .replace, path := ["networks", "port"], siblingName := some "port_id" }
      (∀ d ∈ [network, port], ∃ r, d.check = .ok r) ∧
      ∃ m m', Migration.ofDeclarations [network, port] false = .ok m ∧
        Migration.ofDeclarations ([network, port].filter (·.kind ≠ .resolve)) true = .ok m' ∧
        DifferInListing ⟨p, some m⟩ ⟨p, some m'⟩ := by
  obtain ⟨t, stack, ht, hs⟩ : ∃ t stack,
    Template.ofValue (.map [("heat_template_version", .text "2016-10-14")]) = .ok t ∧
      Stack.make ⟨"s"⟩ "s" t [] (StaticResources.toResources []) = .ok stack := ⟨_, _, rfl, rfl⟩
  have hp : Properties.ofSnippet stack (some (.map [("networks", .list [.map
      [("network", .text "n"), ("port_id", .text "p")]])])) = .ok (.ofSnippets stack _) := rfl
  refine ⟨t, stack, _, ht, hs, hp, ?_⟩
  intro network port
  have hvalid : ∀ d ∈ [network, port], ∃ r, d.check = .ok r := by
    intro d hd
    simp only [List.mem_cons, List.not_mem_nil, or_false] at hd
    obtain rfl | rfl := hd <;> exact ⟨_, rfl⟩
  exact ⟨hvalid, answers_without_clients _ hvalid hp⟩

/-- A property that is listed for the sake of a rule that is skipped has properties migrated before
it is their turn, which then get what others are left without. -/
theorem answers_depend_on_listing :
    let skipped : Declaration :=
      { kind := .resolve, path := ["b"], client := some ⟨fun _ _ v => pure v⟩, finder := some "find" }
    let declarations : List Declaration := [skipped,
      { kind := .replace, path := ["m"], topPath := some ["old", "net"] },
      { kind := .replace, path := ["n"], topPath := some ["b", "q"] },
      { kind := .replace, path := ["n"], topPath := some ["old", "net"] },
      { kind := .replace, path := ["o"], topPath := some ["old"] }]
    let properties := Properties.ofValues [("old", .map [("net", .text "x")])]
    ∃ m m', Migration.ofDeclarations declarations false = .ok m ∧
      Migration.ofDeclarations (declarations.filter (·.kind ≠ .resolve)) true = .ok m' ∧
      (((PropertyView.mk properties (some m)).answers [.all]).run .empty).1 =
        [.ok (.fields [("n", .text "x"), ("o", .map [])])] ∧
      (((PropertyView.mk properties (some m')).answers [.all]).run .empty).1 =
        [.ok (.fields [("m", .text "x"), ("o", .map [])])] := by
  intro skipped declarations properties
  refine ⟨⟨[⟨["b"], .resolve ⟨⟨fun _ _ v => pure v⟩, "find", none⟩, by decide⟩,
      ⟨["m"], .replace (.top ["old", "net"] none), by decide⟩,
      ⟨["n"], .replace (.top ["b", "q"] none), by decide⟩,
      ⟨["n"], .replace (.top ["old", "net"] none), by decide⟩,
      ⟨["o"], .replace (.top ["old"] none), by decide⟩], false⟩,
    ⟨[⟨["m"], .replace (.top ["old", "net"] none), by decide⟩,
      ⟨["n"], .replace (.top ["b", "q"] none), by decide⟩,
      ⟨["n"], .replace (.top ["old", "net"] none), by decide⟩,
      ⟨["o"], .replace (.top ["old"] none), by decide⟩], true⟩,
    congrArg Except.ok (Migration.ofRules_of_pairwise (by decide) false),
    congrArg Except.ok (Migration.ofRules_of_pairwise (by decide) true), ?_, ?_⟩
  · cbv
  · cbv

end PropertyView

end Orchestration
