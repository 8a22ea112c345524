import Orchestration.Proofs.Snippets.Bare
import Orchestration.Proofs.Snippets.HotConditions
import Orchestration.Proofs.Snippets.Sections
import Orchestration.Proofs.Validation.Offered

/-!
Reading canonical forms. Under a negation stands what the definition of a condition is read as, and
an ordinary parser reads it again with other functions than before. Main statement: if the
definitions of conditions call only functions that are offered, as in a stack with valid conditions,
what is read of a canonical form is written the same.
-/

namespace Orchestration

namespace Snippet

theorem text?_canonical (s : Snippet) : s.canonical.text? = s.text? := by
  cases s with
  | scalar s => cases s <;> rfl
  | _ => rfl

theorem eq_text_of_text? {s : Snippet} {name : String} (h : s.text? = some name) :
    s = .text name := by
  cases s with
  | scalar s =>
    cases s with
    | text name => rw [Option.some.inj h]
    | _ => cases h
  | _ => cases h

theorem canonical_call_congr {c c' : Call} {args args' : Snippet} (hname : c'.name = c.name)
    (h : args'.canonical = args.canonical) :
    (call c' args').canonical = (call c args).canonical := by
  rw [canonical, canonical, hname, h]

theorem list?_canonical (s : Snippet) : s.canonical.list? = s.list?.map canonicalItems := by
  cases s <;> rfl

end Snippet

variable {t : Template} {stack : StackId} {p : Parser}

theorem Reads.text?_eq {v : Value} {s : Snippet} (h : Reads t stack p v s) : s.text? = v.text? := by
  cases h with
  | @scalar _ s => cases s <;> rfl
  | _ => rfl

theorem Reads.list?_eq_none {v : Value} {s : Snippet} (h : Reads t stack p v s)
    (hv : v.list? = none) : s.list? = none := by
  cases h with
  | list => cases hv
  | _ => rfl

theorem ReadsFields.exists_eq_singleton {vs : List (String × Value)} {ss : List (String × Snippet)}
    {name : String} {c : Value} (h : ReadsFields t stack p vs ss)
    (hss : Snippet.canonicalFields ss = [(name, c)]) : ∃ v, vs = [(name, v)] := by
  cases h with
  | nil => cases hss
  | cons h hs =>
    cases hs with
    | nil =>
      cases hss
      exact ⟨_, rfl⟩
    | cons => cases hss

mutual

theorem Reads.of_subset {p : Parser} {v : Value} {s : Snippet} {fewer : List String} :
    Reads t stack p v s → fewer ⊆ p.inlining → Reads t stack ⟨p.inConditions, fewer⟩ v s
  | .scalar, _ => .scalar
  | .list h, hl => .list (h.of_subset hl)
  | .map hdata h, hl => .map hdata (h.of_subset hl)
  | .function hreading h hbuild, hl => .function hreading (h.of_subset hl) hbuild
  | .negation hreading hlist h, hl => .negation hreading hlist (h.of_subset hl)
  | .negationOfItem hreading hcfn h, hl => .negationOfItem hreading hcfn (h.of_subset hl)
  | .unavailable hreading h, hl => .unavailable hreading (h.of_subset hl)

theorem ReadsItems.of_subset {p : Parser} {vs : List Value} {ss : List Snippet}
    {fewer : List String} :
    ReadsItems t stack p vs ss → fewer ⊆ p.inlining →
      ReadsItems t stack ⟨p.inConditions, fewer⟩ vs ss
  | .nil, _ => .nil
  | .cons h hs, hl => .cons (h.of_subset hl) (hs.of_subset hl)

theorem ReadsFields.of_subset {p : Parser} {vs : List (String × Value)}
    {ss : List (String × Snippet)} {fewer : List String} :
    ReadsFields t stack p vs ss → fewer ⊆ p.inlining →
      ReadsFields t stack ⟨p.inConditions, fewer⟩ vs ss
  | .nil, _ => .nil
  | .cons h hs, hl => .cons (h.of_subset hl) (hs.of_subset hl)

theorem ReadsOperand.of_subset {p : Parser} {v : Value} {s : Snippet} {fewer : List String} :
    ReadsOperand t stack p v s → fewer ⊆ p.inlining →
      ReadsOperand t stack ⟨p.inConditions, fewer⟩ v s
  | .plain ht h, hl => .plain ht (h.of_subset hl)
  | .named hn hd h, hl =>
    .named (fun hm => hn (hl hm)) hd (h.of_subset (List.cons_subset_cons _ hl))

end

/-- The definitions of conditions are no lists and call only functions that are offered there. -/
def Template.ConditionsOffered (t : Template) (stack : StackId) : Prop :=
  ∀ name definition s, t.condition? name = some definition →
    t.snippet .forConditions stack definition = .ok s → s.IsOffered ∧ s.list? = none

theorem ReadsOperand.isOffered (hc : t.ConditionsOffered stack) {p : Parser} {v : Value}
    {s : Snippet} : ReadsOperand t stack p v s → p.inConditions = true →
      (∃ name, t.condition? name = some v) → s.IsOffered ∧ s.list? = none
  | .plain _ h, hp, ⟨name, hd⟩ => by
    have hread := h.of_subset (List.nil_subset _)
    rw [hp] at hread
    exact hc name v s hd (Template.snippet_eq_ok_iff.2 hread)
  | .named _ hd h, _, _ => h.isOffered hc rfl ⟨_, hd⟩

section

open Form (PassesFor)
open Snippet (canonicalItems canonicalFields text? EveryItem EveryField)

variable {version : HotVersion} (other : StackId)

/-- Entries of a map that is no call of a function that is offered are read as data, or as a call of
a function that is not. -/
theorem ReadsFields.exists_reads_map {fields fields' : List (String × Snippet)}
    (h : ReadsFields t stack p (canonicalFields fields) fields')
    (hfields : canonicalFields fields' = canonicalFields fields)
    (hreading : ∀ name c, canonicalFields fields = [(name, c)] →
      t.version.reading p.inConditions name = .data ∨
        ∃ reason, t.version.reading p.inConditions name = .unavailable reason) :
    ∃ s, Reads t stack p (Snippet.map fields).canonical s ∧
      s.canonical = (Snippet.map fields).canonical ∧ PassesFor s (.map fields) := by
  by_cases hcall : ∃ name c reason, canonicalFields fields = [(name, c)] ∧
      t.version.reading p.inConditions name = .unavailable reason
  · obtain ⟨name, c, reason, hsingle, hreason⟩ := hcall
    rw [hsingle] at h
    rcases h with _ | @⟨_, _, _, c', _, _, h, _ | _⟩
    refine ⟨.call ⟨stack, name, .unavailable t.version reason⟩ c', ?_, congrArg Value.map hfields,
      .callForMap⟩
    rw [Snippet.canonical, hsingle]
    exact .unavailable hreason h
  · refine ⟨.map fields', .map (fun name c hsingle => ?_) h, congrArg Value.map hfields, .map⟩
    obtain hdata | ⟨reason, hreason⟩ := hreading name c hsingle
    · exact hdata
    · exact absurd ⟨name, c, reason, hsingle, hreason⟩ hcall

mutual

/-- What is read in the definition of a condition is read elsewhere of its canonical form. There,
data may be a call of a function that is not offered. -/
theorem Reads.reread_ordinary (hv : t.version = .hot version) {p : Parser} {v : Value}
    {s : Snippet} : Reads t stack p v s → p.inConditions = true → s.IsOffered →
      ∃ s', Reads t other .ordinary s.canonical s' ∧ s'.canonical = s.canonical ∧ PassesFor s' s
  | .scalar, _, _ => ⟨_, .scalar, rfl, .scalar⟩
  | .list h, hp, ho => by
    obtain ⟨ss, hread, hss, htexts⟩ := h.reread_ordinary hv hp ho
    exact ⟨.list ss, .list hread, congrArg Value.list hss, .list htexts⟩
  | .map hdata h, hp, ho => by
    obtain ⟨ss, hread, hss⟩ := h.reread_ordinary hv hp ho
    -- what was data may be a call of a function that is not offered for conditions
    refine hread.exists_reads_map hss fun name c hsingle => ?_
    obtain ⟨a, rfl⟩ := h.exists_eq_singleton hsingle
    have hdata := hdata name a rfl
    rw [hp, hv] at hdata
    rw [hv]
    exact HotVersion.reading_of_reading_data hdata
  | .function hreading h hbuild, hp, ho => by
    have ih := h.reread_ordinary hv hp
    have hbuilds := Form.build_eq_ok_iff.1 hbuild
    rw [hp, hv] at hreading
    obtain ⟨hreading, hform⟩ := HotVersion.reading_of_reading_function hreading
    rw [← hv] at hreading
    obtain rfl := hform.args_eq hbuilds
    obtain ⟨args, hread, hargs, hpasses⟩ := ih ho.2
    have hbuild := Form.build_eq_ok_iff.2 (hform.builds_of_passesFor (c := false) hbuilds hpasses)
    exact ⟨_, .function hreading hread hbuild, Snippet.canonical_call_congr rfl hargs, .call⟩
  | .negation hreading _ h, hp, ho => by
    obtain ⟨s, hread, hs⟩ := h.reread_ordinary hv hp ho.2
    rw [hp, hv] at hreading
    have hreading := HotVersion.reading_of_reading_negation hreading
    rw [← hv] at hreading
    refine ⟨_, .negation hreading (fun hcfn => ?_) hread, Snippet.canonical_call_congr rfl hs,
      .call⟩
    simp [hv, Version.isHot] at hcfn
  | .negationOfItem _ hcfn _, _, _ => by simp [hv, Version.isHot] at hcfn
  | .unavailable _ _, _, ho => absurd rfl (ho.1 _ _)

theorem ReadsItems.reread_ordinary (hv : t.version = .hot version) {p : Parser} {vs : List Value}
    {ss : List Snippet} : ReadsItems t stack p vs ss → p.inConditions = true →
      EveryItem (fun c _ => c.IsOffered) ss →
      ∃ ss', ReadsItems t other .ordinary (canonicalItems ss) ss' ∧
        canonicalItems ss' = canonicalItems ss ∧ ss'.map text? = ss.map text?
  | .nil, _, _ => ⟨[], .nil, rfl, rfl⟩
  | .cons h hs, hp, ho => by
    obtain ⟨s', hread, hcanonical, hpasses⟩ := h.reread_ordinary hv hp ho.1
    obtain ⟨ss', hreads, hcanonicals, htexts⟩ := hs.reread_ordinary hv hp ho.2
    refine ⟨s' :: ss', .cons hread hreads, ?_, ?_⟩
    · rw [canonicalItems, canonicalItems, hcanonical, hcanonicals]
    · rw [List.map_cons, List.map_cons, hpasses.text?_eq, htexts]

theorem ReadsFields.reread_ordinary (hv : t.version = .hot version) {p : Parser}
    {vs : List (String × Value)} {ss : List (String × Snippet)} :
    ReadsFields t stack p vs ss → p.inConditions = true →
      EveryField (fun c _ => c.IsOffered) ss →
      ∃ ss', ReadsFields t other .ordinary (canonicalFields ss) ss' ∧
        canonicalFields ss' = canonicalFields ss
  | .nil, _, _ => ⟨[], .nil, rfl⟩
  | .cons h hs, hp, ho => by
    obtain ⟨s', hread, hcanonical, -⟩ := h.reread_ordinary hv hp ho.1
    obtain ⟨ss', hreads, hcanonicals⟩ := hs.reread_ordinary hv hp ho.2
    refine ⟨(_, s') :: ss', .cons hread hreads, ?_⟩
    rw [canonicalFields, canonicalFields, hcanonical, hcanonicals]

theorem ReadsOperand.reread_ordinary (hv : t.version = .hot version) {p : Parser} {v : Value}
    {s : Snippet} : ReadsOperand t stack p v s → p.inConditions = true → s.IsOffered →
      ∃ s', ReadsOperand t other .ordinary s.canonical s' ∧ s'.canonical = s.canonical
  | .plain ht h, hp, ho => by
    obtain ⟨s', hread, hcanonical, -⟩ := h.reread_ordinary hv hp ho
    exact ⟨s', .plain ((Snippet.text?_canonical s).trans (h.text?_eq.trans ht)) hread, hcanonical⟩
  | .named _ _ h, _, ho => h.reread_ordinary hv rfl ho

end

theorem ReadsOperand.list?_eq_none (hc : t.ConditionsOffered stack) {p : Parser} {v : Value}
    {s : Snippet} (h : ReadsOperand t stack p v s) (hv : v.list? = none) : s.list? = none := by
  cases h with
  | plain _ h => exact h.list?_eq_none hv
  | named _ hd h => exact (h.isOffered hc rfl ⟨_, hd⟩).2

mutual

/-- What is read is read again of its canonical form, up to the arguments of calls. -/
theorem Reads.reread (hc : t.ConditionsOffered stack) {p : Parser} {v : Value} {s : Snippet} :
    Reads t stack p v s →
      ∃ s', Reads t other ⟨p.inConditions, []⟩ s.canonical s' ∧ s'.canonical = s.canonical ∧
        s'.bare = s.bare
  | .scalar => ⟨_, .scalar, rfl, rfl⟩
  | .list h => by
    obtain ⟨ss, hread, hcanonical, hbare⟩ := h.reread hc
    exact ⟨.list ss, .list hread, congrArg Value.list hcanonical, congrArg Snippet.list hbare⟩
  | @Reads.map _ _ _ vs fields hdata h => by
    obtain ⟨ss, hread, hcanonical, hbare⟩ := h.reread hc
    refine ⟨.map ss, .map (fun name c hsingle => ?_) hread, congrArg Value.map hcanonical,
      congrArg Snippet.map hbare⟩
    obtain ⟨a, rfl⟩ := h.exists_eq_singleton hsingle
    exact hdata name a rfl
  | .function hreading h hbuild => by
    obtain ⟨args, hread, hcanonical, hbare⟩ := h.reread hc
    have hbuilds := Form.build_eq_ok_iff.1 hbuild
    obtain rfl | ⟨name, field, rfl⟩ := hbuilds.args_eq
    · have hbuild := Form.build_eq_ok_iff.2 (hbuilds.of_bare hbare)
      exact ⟨_, .function hreading hread hbuild, Snippet.canonical_call_congr rfl hcanonical, rfl⟩
    · -- an attribute that was read from a dotted text is written as a list
      have hbuild := Form.build_eq_ok_iff.2 (hbuilds.of_bare rfl)
      exact ⟨_, .function hreading (.list (.cons .scalar (.cons .scalar .nil))) hbuild, rfl, rfl⟩
  | .negation hreading hlist h => by
    obtain ⟨s, hread, hcanonical⟩ := h.reread hc fun hp =>
      Version.exists_hot_of_negation (hp ▸ hreading)
    refine ⟨_, .negation hreading (fun hcfn => ?_) hread,
      Snippet.canonical_call_congr rfl hcanonical, rfl⟩
    rw [Snippet.list?_canonical, h.list?_eq_none hc (hlist hcfn)]
    rfl
  | .negationOfItem hreading hcfn h => by
    obtain ⟨s, hread, hcanonical⟩ := h.reread hc fun hp =>
      Version.exists_hot_of_negation (hp ▸ hreading)
    exact ⟨_, .negationOfItem hreading hcfn hread,
      Snippet.canonical_call_congr rfl (congrArg (fun c => Value.list [c]) hcanonical), rfl⟩
  | .unavailable hreading h => by
    obtain ⟨args, hread, hcanonical, -⟩ := h.reread hc
    exact ⟨_, .unavailable hreading hread, Snippet.canonical_call_congr rfl hcanonical, rfl⟩

theorem ReadsItems.reread (hc : t.ConditionsOffered stack) {p : Parser} {vs : List Value}
    {ss : List Snippet} : ReadsItems t stack p vs ss →
      ∃ ss', ReadsItems t other ⟨p.inConditions, []⟩ (canonicalItems ss) ss' ∧
        canonicalItems ss' = canonicalItems ss ∧ Snippet.bareItems ss' = Snippet.bareItems ss
  | .nil => ⟨[], .nil, rfl, rfl⟩
  | .cons h hs => by
    obtain ⟨s', hread, hcanonical, hbare⟩ := h.reread hc
    obtain ⟨ss', hreads, hcanonicals, hbares⟩ := hs.reread hc
    refine ⟨s' :: ss', .cons hread hreads, ?_, ?_⟩
    · rw [canonicalItems, canonicalItems, hcanonical, hcanonicals]
    · rw [Snippet.bareItems, Snippet.bareItems, hbare, hbares]

theorem ReadsFields.reread (hc : t.ConditionsOffered stack) {p : Parser}
    {vs : List (String × Value)} {ss : List (String × Snippet)} :
    ReadsFields t stack p vs ss →
      ∃ ss', ReadsFields t other ⟨p.inConditions, []⟩ (canonicalFields ss) ss' ∧
        canonicalFields ss' = canonicalFields ss ∧ Snippet.bareFields ss' = Snippet.bareFields ss
  | .nil => ⟨[], .nil, rfl, rfl⟩
  | .cons h hs => by
    obtain ⟨s', hread, hcanonical, hbare⟩ := h.reread hc
    obtain ⟨ss', hreads, hcanonicals, hbares⟩ := hs.reread hc
    refine ⟨(_, s') :: ss', .cons hread hreads, ?_, ?_⟩
    · rw [canonicalFields, canonicalFields, hcanonical, hcanonicals]
    · rw [Snippet.bareFields, Snippet.bareFields, hbare, hbares]

theorem ReadsOperand.reread (hc : t.ConditionsOffered stack) {p : Parser} {v : Value}
    {s : Snippet} : ReadsOperand t stack p v s →
      (p.inConditions = false → ∃ version, t.version = .hot version) →
      ∃ s', ReadsOperand t other ⟨p.inConditions, []⟩ s.canonical s' ∧ s'.canonical = s.canonical
  | .plain ht h, _ => by
    obtain ⟨s', hread, hcanonical, -⟩ := h.reread hc
    exact ⟨s', .plain ((Snippet.text?_canonical s).trans (h.text?_eq.trans ht)) hread, hcanonical⟩
  | .named _ hd h, hhot => by
    have ih := h.reread hc (by simp)
    cases hp : p.inConditions with
    | true => exact ih
    | false =>
      obtain ⟨version, hv⟩ := hhot hp
      exact h.reread_ordinary other hv rfl (h.isOffered hc rfl ⟨_, hd⟩).1

end

end

namespace Stack

theorem conditionsOffered_of_validateConditions {stack : Stack} {memo : Memo} (hs : stack.Proper)
    (h : (stack.validateConditions.run memo).1 = .ok ()) :
    stack.template.ConditionsOffered stack.id := by
  intro name definition s hd hread
  have hcondition := hs.condition name
  rw [hd] at hcondition
  generalize hget : stack.conditions.get? name = found at hcondition
  cases hcondition with
  | some hread' =>
    cases Except.ok.inj (hread'.symm.trans hread)
    have hchecked := checkedDefinitions_of_validateConditions h _ (Fields.mem_of_get? hget)
    refine ⟨isOffered_of_passes hchecked.passes, ?_⟩
    obtain ⟨b, rfl⟩ | ⟨c, args, rfl⟩ | ⟨name, rfl, -⟩ := hchecked.isCondition <;> rfl

end Stack

namespace Template

variable {target : Stack}

theorem reparsePart_of_holds (hc : target.template.ConditionsOffered stack) {part : Option Snippet}
    (h : ∀ s ∈ part, target.template.Holds stack .ordinary s) :
    ∃ part', ResourceDefinition.reparsePart target part = .ok part' ∧
      ∀ key, ResourceDefinition.canonicalSection key part' =
        ResourceDefinition.canonicalSection key part := by
  cases part with
  | none => exact ⟨none, rfl, fun _ => rfl⟩
  | some s =>
    obtain ⟨v, hread⟩ := h s rfl
    obtain ⟨s', hread', hcanonical, -⟩ :=
      (snippet_eq_ok_iff.1 hread).reread target.id hc
    refine ⟨some s', congrArg (some <$> ·) (snippet_eq_ok_iff.2 hread'), fun key => ?_⟩
    simp only [ResourceDefinition.canonicalSection, Option.toList_some, List.map_cons, List.map_nil,
      hcanonical]

theorem reparse_of_holdsParts (hc : target.template.ConditionsOffered stack)
    {d : ResourceDefinition} (h : target.template.HoldsParts stack d) :
    ∃ d', d.reparse target = .ok d' ∧
      d'.hot = ResourceDefinition.hot { d with condition := none } := by
  obtain ⟨properties, hproperties, hpropertiesHot⟩ := reparsePart_of_holds hc h.properties
  obtain ⟨metadata, hmetadata, hmetadataHot⟩ := reparsePart_of_holds hc h.metadata
  obtain ⟨updatePolicy, hpolicy, hpolicyHot⟩ := reparsePart_of_holds hc h.updatePolicy
  obtain ⟨externalId, hexternal, hexternalHot⟩ := reparsePart_of_holds hc h.externalId
  refine ⟨_, (Run.ok_bind hproperties).trans <| (Run.ok_bind hmetadata).trans <|
    (Run.ok_bind hpolicy).trans <| Run.ok_bind hexternal, ?_⟩
  simp only [ResourceDefinition.hot, hpropertiesHot, hmetadataHot, hpolicyHot, hexternalHot]

/-- What a parser reads is written as a value that a fresh parser of the same kind reads, for any
stack, as something that is written the same. So definitions can be read again and stay what they
are. What stands in place of the name of a condition was read with other functions, so this takes
definitions of conditions that are no lists and call only functions that are offered there. -/
theorem canonical_roundTrip (t : Template) (stack : StackId) (h : t.ConditionsOffered stack) :
    (∀ c v s, t.snippet ⟨c, []⟩ stack v = .ok s →
      ∀ other, ∃ s', t.snippet ⟨c, []⟩ other s.canonical = .ok s' ∧ s'.canonical = s.canonical ∧
        s'.bare = s.bare) ∧
    ∀ target : Stack, target.template = t → ∀ d, t.HoldsParts stack d →
      ∃ d', d.reparse target = .ok d' ∧
        d'.hot = ResourceDefinition.hot { d with condition := none } := by
  refine ⟨fun c v s hread other => ?_, ?_⟩
  · obtain ⟨s', hread', hs'⟩ := (snippet_eq_ok_iff.1 hread).reread other h
    exact ⟨s', snippet_eq_ok_iff.2 hread', hs'⟩
  · rintro target rfl d hd
    exact reparse_of_holdsParts h hd

/-- The negation of a condition is written with the definition in place of the name, and read
again. -/
theorem canonical_roundTrip_of_negation :
    ∃ t stack s, ofValue (.map [("heat_template_version", .text "2016-10-14"),
        ("conditions", .map [("live", .map [("equals", .list [.text "a", .text "b"])])])]) =
          .ok t ∧
      Stack.make ⟨"s"⟩ "s" t [] (StaticResources.toResources []) = .ok stack ∧
      (stack.validateConditions.run []).1 = .ok () ∧
      stack.template.snippet .ordinary stack.id (.map [("not", .text "live")]) = .ok s ∧
      s.canonical = .map [("not", .map [("equals", .list [.text "a", .text "b"])])] ∧
      ∃ s', stack.template.snippet .ordinary stack.id s.canonical = .ok s' ∧
        s'.canonical = s.canonical := by
  have hagain (stack : Stack) (v : Value) (s : Snippet) (hs : stack.Proper)
      (hvalid : (stack.validateConditions.run []).1 = .ok ())
      (hread : stack.template.snippet .ordinary stack.id v = .ok s) :
      ∃ s', stack.template.snippet .ordinary stack.id s.canonical = .ok s' ∧
        s'.canonical = s.canonical := by
    have hc := Stack.conditionsOffered_of_validateConditions hs hvalid
    obtain ⟨s', hread, hcanonical, -⟩ :=
      (canonical_roundTrip stack.template stack.id hc).1 false v s hread stack.id
    exact ⟨s', hread, hcanonical⟩
  exact ⟨_, _, _, rfl, rfl, rfl, rfl, rfl,
    hagain _ (.map [("not", .text "live")]) _ rfl rfl rfl⟩

/-- The definition of a condition may call a function that is not offered there, with arguments that
the function does not take elsewhere. -/
theorem canonical_not_read :
    ∃ t s e, ofValue (.map [("heat_template_version", .text "2016-10-14"),
        ("conditions", .map [("base", .map [("get_attr", .list [])])])]) = .ok t ∧
      t.snippet .ordinary ⟨"s"⟩ (.map [("not", .text "base")]) = .ok s ∧
      t.snippet .ordinary ⟨"s"⟩ s.canonical = .error e :=
  ⟨_, _, _, rfl, rfl, rfl⟩

end Template

end Orchestration
