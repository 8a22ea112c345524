import Orchestration.Proofs.Definitions.Identity
import Orchestration.Proofs.Definitions.Steps
import Orchestration.Proofs.Evaluation
import Orchestration.Proofs.Fields
import Orchestration.Proofs.Migration.ReadOrder

namespace Orchestration

namespace Snippet

mutual

theorem dependencies_of_isPlain :
    ∀ (s : Snippet) (path : String), s.isPlain = true → s.dependencies path = []
  | .scalar _, _, _ => rfl
  | .list items, path, h => itemDependencies_of_isPlain items path 0 h
  | .map fields, path, h => fieldDependencies_of_isPlain fields path h

theorem itemDependencies_of_isPlain : ∀ (items : List Snippet) (path : String) (i : Nat),
    isPlainItems items = true → itemDependencies items path i = []
  | [], _, _, _ => rfl
  | s :: rest, path, i, h => by
    obtain ⟨hs, hrest⟩ := Bool.and_eq_true_iff.1 h
    rw [itemDependencies, dependencies_of_isPlain s _ hs, itemDependencies_of_isPlain rest path _ hrest]
    rfl

theorem fieldDependencies_of_isPlain : ∀ (fields : List (String × Snippet)) (path : String),
    isPlainFields fields = true → fieldDependencies fields path = []
  | [], _, _ => rfl
  | (_, s) :: rest, path, h => by
    obtain ⟨hs, hrest⟩ := Bool.and_eq_true_iff.1 h
    rw [fieldDependencies, dependencies_of_isPlain s _ hs, fieldDependencies_of_isPlain rest path hrest]
    rfl

end

theorem ofFields_eq (fields : Fields Value) :
    ofFields fields = fields.map fun e => (e.1, ofValue e.2) := by
  induction fields with
  | nil => rfl
  | cons e rest ih => exact congrArg _ ih

end Snippet

namespace Properties

variable {stack : Stack}

theorem value_ofValue (other : Stack) (v : Value) : other.value (.ofValue v) = .ok v := by
  rw [other.value_of_isPlain _ (Snippet.isPlain_ofValue v), Snippet.canonical_ofValue]

theorem ofSnippets_ofFields {fields : Fields Snippet} {values : Fields Value}
    (h : (fields.mapM fun e => (e.1, ·) <$> stack.value e.2) = .ok values) (other : Stack) :
    ofSnippets other (Snippet.ofFields values) = ofSnippets stack fields := by
  have hentry : ∀ (e : String × Snippet) e', (e.1, ·) <$> stack.value e.2 = .ok e' →
      e'.1 = e.1 ∧ stack.value e.2 = .ok e'.2 := by
    intro e e' he
    obtain ⟨v, hv, rfl⟩ := Run.exists_of_map_ok he
    exact ⟨rfl, hv⟩
  have hvalue : ∀ key, (ofSnippets other (Snippet.ofFields values)).value key =
      (ofSnippets stack fields).value key := by
    intro key
    have hrel := Fields.rel_get?_of_mapM (R := fun s v => stack.value s = .ok v) h
      (fun name s e => hentry (name, s) e) key
    simp only [ofSnippets, Snippet.ofFields_eq, Fields.get?_map]
    generalize fields.get? key = s at hrel
    generalize values.get? key = v at hrel
    cases hrel with
    | none => rfl
    | some hv => simp only [Option.map_some, value_ofValue, hv]
  have hkeys : Fields.keys (Snippet.ofFields values) = fields.keys := by
    rw [Snippet.ofFields_eq, Fields.keys_map]
    exact Fields.keys_of_mapM h fun e e' he => (hentry e e' he).1
  exact congrArg₂ Properties.mk hkeys (funext hvalue)

theorem ofValues_eq (other : Stack) (fields : Fields Value) :
    ofValues fields = ofSnippets other (Snippet.ofFields fields) := by
  have hvalue : ∀ key, (ofValues fields).value key =
      (ofSnippets other (Snippet.ofFields fields)).value key := by
    intro key
    simp only [ofSnippets, ofValues, Snippet.ofFields_eq, Fields.get?_map]
    cases fields.get? key with
    | none => rfl
    | some v =>
      simp only [Option.map_some, value_ofValue]
      cases hn : v.isNull <;> simp [Option.filter, hn] <;> rfl
  refine congrArg₂ Properties.mk ?_ (funext hvalue)
  rw [Snippet.ofFields_eq, Fields.keys_map]

theorem ofSnippet_ofValue {s : Snippet} {v : Value} (h : stack.value s = .ok v) (other : Stack) :
    ofSnippet other (some (.ofValue v)) = ofSnippet stack (some s) := by
  cases s with
  | scalar s =>
    cases h
    cases s <;> rfl
  | list items =>
    rw [stack.value_list] at h
    obtain ⟨values, -, rfl⟩ := Run.exists_of_map_ok h
    rfl
  | map fields =>
    rw [stack.value_map] at h
    obtain ⟨values, hvalues, rfl⟩ := Run.exists_of_map_ok h
    exact congrArg Except.ok (ofSnippets_ofFields hvalues other)
  | call c args =>
    refine Eq.trans ?_ (Run.ok_bind h).symm
    cases v with
    | scalar s => cases s <;> rfl
    | list items => rfl
    | map fields => exact congrArg Except.ok (ofValues_eq other fields).symm

end Properties

namespace ResourceDefinition

open Relation (ReflTransGen)

variable {stack : Stack} {d f : ResourceDefinition} {memo after : Memo}

theorem freeze_of_isFrozen (h : d.isFrozen = true) (stack : Stack) (memo : Memo) :
    (d.freeze stack {}).run memo = (.ok d, memo) := by
  unfold freeze
  rw [if_pos (show d.isKept {} = true from Bool.and_eq_true_iff.2 ⟨h, rfl⟩)]
  rfl

theorem Plain.referred_eq_nil {part : String} {s : Option Snippet}
    (h : ∀ content ∈ s, content.isPlain = true) : d.referred part s = [] := by
  cases s with
  | none => rfl
  | some s => simp [referred, Snippet.dependencies_of_isPlain s _ (h s rfl)]

theorem Plain.requires (h : d.Plain) :
    d.requires = { d with properties := none, metadata := none }.requires := by
  have hproperties : d.referred "properties" d.properties = [] := referred_eq_nil h.properties
  have hmetadata : d.referred "metadata" d.metadata = [] := referred_eq_nil h.metadata
  unfold referred at hproperties hmetadata
  simp only [ResourceDefinition.requires, hproperties, hmetadata]
  rfl

theorem Plain.ofSnippet (h : d.Plain) (stack other : Stack) :
    Properties.ofSnippet other d.properties = Properties.ofSnippet stack d.properties := by
  cases hs : d.properties with
  | none => rfl
  | some s =>
    have hplain := h.properties s hs
    exact (Properties.ofSnippet_ofValue (other.value_of_isPlain s hplain) stack).symm.trans
      (Properties.ofSnippet_ofValue (stack.value_of_isPlain s hplain) stack)

theorem properties_of_freeze (hd : d.isFrozen = false)
    (h : (d.freeze stack {}).run memo = (.ok f, after)) :
    f.dependsOn = d.dependsOn ∧
      ∃ mid, (freezePart stack none d.properties).run memo = (.ok f.properties, mid) := by
  unfold freeze at h
  dsimp only at h
  rw [if_neg (show ¬d.isKept {} = true by simp [isKept, hd])] at h
  obtain ⟨_, mid, hproperties, h⟩ := Run.exists_of_bind h
  obtain ⟨_, _, -, h⟩ := Run.exists_of_bind h
  obtain ⟨_, _, -, h⟩ := Run.exists_of_bind h
  obtain ⟨_, _, -, h⟩ := Run.exists_of_bind h
  obtain ⟨_, _, -, h⟩ := Run.exists_of_bind h
  cases h
  exact ⟨rfl, mid, hproperties⟩

theorem ofSnippet_of_freezePart {earlier : List Request} {s frozen : Option Snippet}
    (h : (freezePart stack none s).run (stack.memoAfter earlier) = (.ok frozen, after))
    (other : Stack) : Properties.ofSnippet other frozen = Properties.ofSnippet stack s := by
  cases s with
  | none =>
    cases h
    rfl
  | some s =>
    obtain ⟨_, hpart, rfl⟩ := Run.exists_of_map h
    obtain ⟨v, hv, rfl⟩ := Run.exists_of_map hpart
    have hvalue : stack.value s = .ok v := by
      rw [stack.value_eq, ← stack.resolve_run_memoAfter s earlier, hv]
    exact Properties.ofSnippet_ofValue hvalue other

def propertyAnswers (d : ResourceDefinition) (stack : Stack) (migration : Option Migration)
    (requests : List PropertyView.Request) : Result (List (Result PropertyView.Answer)) := do
  let view := PropertyView.mk (← Properties.ofSnippet stack d.properties) migration
  return ((view.answers requests).run .empty).1

/-- Freezing is final: a frozen definition stays what it is when it is frozen again, and is told to
depend on the same resources as before. Unless it was frozen before and given a call since, it has no
calls and requires only what it is told to depend on, and its properties are read, migrated or not,
in any stack as those of the definition that it is frozen from are read in their own. Only a step
that is taken after a definition was frozen can make such an exception. -/
theorem freeze_final (d : ResourceDefinition) (stack : Stack) (earlier : List Request)
    (f : ResourceDefinition)
    (h : ((d.freeze stack {}).run (stack.memoAfter earlier)).1 = .ok f) :
    (∀ other memo, (f.freeze other {}).run memo = (.ok f, memo)) ∧
    f.dependsOn = d.dependsOn ∧
    (d.isFrozen = true → f = d) ∧
    (f.Plain ↔ d.Settled) ∧
    (d.Settled →
      f.requires = { f with properties := none, metadata := none }.requires ∧
      ∀ other migration requests,
        f.propertyAnswers other migration requests = d.propertyAnswers stack migration requests) ∧
    ∀ b : ResourceDefinition, b.Begins →
      ReflTransGen (fun d f => d.isFrozen = false ∧ d.Becomes f) b d → d.Settled := by
  have hrun : (d.freeze stack {}).run (stack.memoAfter earlier) =
    (.ok f, ((d.freeze stack {}).run (stack.memoAfter earlier)).2) := Prod.ext h rfl
  have hkept : d.isFrozen = true → f = d := by
    intro hfrozen
    rw [freeze_of_isFrozen hfrozen] at h
    exact (Except.ok.inj h).symm
  have hsame : f.dependsOn = d.dependsOn ∧ (d.Settled → ∀ other,
      Properties.ofSnippet other f.properties = Properties.ofSnippet stack d.properties) := by
    cases hfrozen : d.isFrozen with
    | false =>
      obtain ⟨hdepends, _, hproperties⟩ := properties_of_freeze hfrozen hrun
      exact ⟨hdepends, fun _ => ofSnippet_of_freezePart hproperties⟩
    | true =>
      obtain rfl := hkept hfrozen
      exact ⟨rfl, fun hd => (hd hfrozen).ofSnippet stack⟩
  have hplain : f.Plain ↔ d.Settled :=
    ⟨fun hf hfrozen => hkept hfrozen ▸ hf, fun hd => hd.plain_of_freeze hrun⟩
  have hreads : d.Settled → ∀ other migration requests,
      f.propertyAnswers other migration requests = d.propertyAnswers stack migration requests := by
    intro hd other migration requests
    rw [propertyAnswers, hsame.2 hd other]
    rfl
  exact ⟨freeze_of_isFrozen (isFrozen_of_freeze hrun), hsame.1, hkept, hplain,
    fun hd => ⟨(hplain.2 hd).requires, hreads hd⟩, fun _ hb hsteps => hb.settled_of_steps hsteps⟩

theorem freeze_final_of_server :
    ∃ t stack s f t' other, Template.ofValue (.map [("heat_template_version", .text "2016-10-14"),
        ("parameters", .map [("size", .map [("type", .text "string")])])]) = .ok t ∧
      Stack.make ⟨"s"⟩ "s" t [("size", .text "large")] (StaticResources.toResources []) =
        .ok stack ∧
      t.snippet .ordinary ⟨"s"⟩ (.map [("size", .map [("get_param", .text "size")])]) = .ok s ∧
      let d := withProperties { name := "server", type := "Server" } s
      ((d.freeze stack {}).run (stack.memoAfter [])).1 = .ok f ∧
      Template.ofValue (.map [("heat_template_version", .text "2016-10-14")]) = .ok t' ∧
      Stack.make ⟨"other"⟩ "other" t' [] (StaticResources.toResources []) = .ok other ∧
      d.propertyAnswers stack none [.property "size"] =
        .ok [.ok (.value (some (.text "large")))] ∧
      d.Settled ∧ f.Plain ∧ f.propertyAnswers other none [.property "size"] =
        d.propertyAnswers stack none [.property "size"] := by
  have hfinal {b d f : ResourceDefinition} {stack : Stack} (hb : b.Begins)
      (hstep : b.isFrozen = false ∧ b.Becomes d)
      (h : ((d.freeze stack {}).run (stack.memoAfter [])).1 = .ok f) (other : Stack) :
      d.Settled ∧ f.Plain ∧ f.propertyAnswers other none [.property "size"] =
        d.propertyAnswers stack none [.property "size"] := by
    obtain ⟨-, -, -, hplain, hreads, hsettled⟩ := freeze_final d stack [] f h
    have hd := hsettled b hb (.single hstep)
    exact ⟨hd, hplain.2 hd, (hreads hd).2 other none _⟩
  exact ⟨_, _, _, _, _, _, rfl, rfl, rfl, rfl, rfl, rfl, rfl,
    hfinal (.new "server" "Server") ⟨rfl, .withProperties _⟩ rfl _⟩

/-- A server that is frozen and given a call afterwards is kept as it is when it is frozen again, and
its size is found only where there is a parameter for it. And a definition with a NaN in it changes,
by its diff, to what it is when it is frozen again. -/
theorem freeze_keeps_call :
    (∃ t stack s f t' other, Template.ofValue (.map [("heat_template_version", .text "2016-10-14"),
        ("parameters", .map [("size", .map [("type", .text "string")])])]) = .ok t ∧
      Stack.make ⟨"s"⟩ "s" t [("size", .text "large")] (StaticResources.toResources []) =
        .ok stack ∧
      t.snippet .ordinary ⟨"s"⟩ (.map [("size", .map [("get_param", .text "size")])]) = .ok s ∧
      ((freeze stack { name := "server", type := "Server" } {}).run (stack.memoAfter [])).1 = .ok f ∧
      let d := f.withProperties s
      ((d.freeze stack {}).run (stack.memoAfter [])).1 = .ok d ∧ ¬d.Plain ∧
      Template.ofValue (.map [("heat_template_version", .text "2016-10-14")]) = .ok t' ∧
      Stack.make ⟨"other"⟩ "other" t' [] (StaticResources.toResources []) = .ok other ∧
      d.propertyAnswers stack none [.property "size"] =
        .ok [.ok (.value (some (.text "large")))] ∧
      d.propertyAnswers other none [.property "size"] ≠
        d.propertyAnswers stack none [.property "size"]) ∧
    ∃ f, FrozenWith "nan" f ∧ (∀ other memo, (f.freeze other {}).run memo = (.ok f, memo)) ∧
      (Diff.mk f f).isChanged = true := by
  refine ⟨⟨_, _, _, _, _, _, rfl, rfl, rfl, rfl, rfl, ?_, rfl, rfl, rfl, ?_⟩, ?_⟩
  · intro h
    cases h.properties _ rfl
  · intro h
    cases h
  · exact ⟨_, ⟨_, _, _, rfl, rfl, rfl, rfl⟩, fun _ _ => rfl, rfl⟩

end ResourceDefinition

end Orchestration
