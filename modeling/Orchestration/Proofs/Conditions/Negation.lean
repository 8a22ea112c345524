import Orchestration.Proofs.Conditions.Circularity
import Orchestration.Proofs.Evaluation
import Orchestration.Proofs.Snippets.RoundTrip

namespace Orchestration

open Relation (TransGen)

namespace Stack

def Renames (stack : Stack) (name other : String) : Prop :=
  stack.conditions.get? name = some (.text other)

/-- The definition at the end of the names that conditions are defined as. -/
inductive StandsFor (stack : Stack) : String → Snippet → Prop
  | definition {name s} :
    stack.conditions.get? name = some s → s.text? = none → StandsFor stack name s
  | renamed {name other s} :
    stack.Renames name other → StandsFor stack other s → StandsFor stack name s

variable {stack : Stack} {name other : String} {s s' : Snippet} {b : Bool}

namespace StandsFor

theorem unique (h : stack.StandsFor name s) (h' : stack.StandsFor name s') : s' = s := by
  induction h with
  | definition hget ht =>
    cases h' with
    | definition hget' _ => exact Option.some.inj (hget'.symm.trans hget)
    | renamed hr _ =>
      cases hget.symm.trans hr
      cases ht
  | renamed hr _ ih =>
    cases h' with
    | definition hget ht =>
      cases hr.symm.trans hget
      cases ht
    | renamed hr' h' =>
      cases hr.symm.trans hr'
      exact ih h'

theorem not_transGen (h : stack.StandsFor name s) : ¬TransGen stack.Renames name name := by
  induction h with
  | definition hget ht =>
    intro hc
    obtain ⟨_, hr, -⟩ := TransGen.head'_iff.1 hc
    cases hget.symm.trans hr
    cases ht
  | renamed hr _ ih =>
    intro hc
    obtain ⟨_, hr', hc⟩ := TransGen.head'_iff.1 hc
    cases hr.symm.trans hr'
    exact ih (TransGen.tail' hc hr)

end StandsFor

section

variable {find : String → Result Bool}

theorem run_truth_text : (Evaluation.truth stack name (.text other)).run find = find other :=
  Inquiry.run_truth other

theorem run_truth_eq_ok_iff (ht : s.text? = none) :
    (Evaluation.truth stack name s).run find = .ok b ↔
      (Evaluation.resolve stack s).run find = .ok (.bool b) := by
  cases s with
  | scalar s =>
    rw [Evaluation.resolve]
    cases s with
    | bool c => simp [Evaluation.truth, pure]
    | text other => cases ht
    | _ => simp [Evaluation.truth, Inquiry.stop, pure]
  | list items =>
    rw [Evaluation.resolve_list, Inquiry.run_map]
    constructor
    · intro h
      cases h
    · intro h
      obtain ⟨_, -, h⟩ := Run.exists_of_map_ok h
      cases h
  | map fields =>
    rw [Evaluation.resolve_map, Inquiry.run_map]
    constructor
    · intro h
      cases h
    · intro h
      obtain ⟨_, -, h⟩ := Run.exists_of_map_ok h
      cases h
  | call c args =>
    rw [Evaluation.truth, Inquiry.run_bind]
    constructor
    · intro h
      obtain ⟨v, hv, h⟩ := Run.exists_of_bind_ok h
      split at h
      · cases h
        exact hv
      · cases h
    · intro h
      exact Run.ok_bind h

end

theorem StandsFor.truthOf_eq_ok_iff (h : stack.StandsFor name s) :
    stack.truthOf name = .ok b ↔ stack.value s = .ok (.bool b) := by
  induction h with
  | definition hget ht =>
    rw [Stack.truthOf_eq_ok_iff hget, run_truth_eq_ok_iff ht, value_eq]
  | renamed hr _ ih => rw [Stack.truthOf_eq_ok_iff hr, run_truth_text, ih]

theorem exists_standsFor_of_truthOf (h : stack.truthOf name = .ok b) :
    ∃ s, stack.StandsFor name s := by
  have hacc := acc_consults h
  induction hacc generalizing b with
  | intro name _ ih =>
    obtain ⟨definition, hget, -⟩ := truthUnder_eq_ok h
    cases ht : definition.text? with
    | none => exact ⟨definition, .definition hget ht⟩
    | some other =>
      obtain rfl := Snippet.eq_text_of_text? ht
      have hother := (Stack.truthOf_eq_ok_iff hget).1 h
      rw [run_truth_text] at hother
      obtain ⟨s, hs⟩ := ih other (follows_of_truth hget rfl) hother
      exact ⟨s, .renamed hget hs⟩

theorem Proper.get?_eq_some (hs : stack.Proper) {definition : Value} {p : Parser}
    (hd : stack.template.condition? name = some definition) (hp : p.inConditions = true)
    (h : Reads stack.template stack.id p definition s) : stack.conditions.get? name = some s := by
  have hread := h.of_subset (List.nil_subset _)
  rw [hp] at hread
  have hcondition := hs.condition name
  rw [hd] at hcondition
  generalize stack.conditions.get? name = found at hcondition
  cases hcondition with
  | some hread' =>
    exact congrArg some (Except.ok.inj (hread'.symm.trans (Template.snippet_eq_ok_iff.2 hread)))

theorem Proper.exists_reads (hs : stack.Proper) (h : stack.conditions.get? name = some s) :
    ∃ definition, stack.template.condition? name = some definition ∧
      Reads stack.template stack.id .forConditions definition s := by
  have hcondition := hs.condition name
  rw [h] at hcondition
  generalize stack.template.condition? name = found at hcondition
  cases hcondition with
  | some hread => exact ⟨_, rfl, Template.snippet_eq_ok_iff.1 hread⟩

theorem standsFor_of_reads (hs : stack.Proper) {p : Parser} {definition : Value} {s : Snippet} :
    ReadsOperand stack.template stack.id p definition s → p.inConditions = true →
      ∀ {name}, stack.template.condition? name = some definition → stack.StandsFor name s
  | .plain ht h, hp, _, hd => .definition (hs.get?_eq_some hd hp h) (h.text?_eq.trans ht)
  | .named _ hnext h, hp, _, hd =>
    .renamed (hs.get?_eq_some hd hp .scalar) (standsFor_of_reads hs h rfl hnext)

end Stack

section

variable {t : Template} {stack : StackId} {x : String}

def Inlines (t : Template) (stack : StackId) (name : String) (size : Nat) : Prop :=
  ∃ p definition s, p.inConditions = true ∧ t.condition? name = some definition ∧
    ReadsOperand t stack p definition s ∧ sizeOf s < size

theorem Inlines.mono {n m : Nat} (h : Inlines t stack x n) (hle : n ≤ m) : Inlines t stack x m := by
  obtain ⟨p, definition, s, hp, hd, hread, hsize⟩ := h
  exact ⟨p, definition, s, hp, hd, hread, hsize.trans_le hle⟩

mutual

theorem Reads.cons_or {p : Parser} {v : Value} {s : Snippet} : Reads t stack p v s →
    Reads t stack ⟨p.inConditions, x :: p.inlining⟩ v s ∨ Inlines t stack x (sizeOf s)
  | .scalar => .inl .scalar
  | .list h => by
    obtain h | hx := h.cons_or
    · exact .inl (.list h)
    · exact .inr (hx.mono (by simp only [Snippet.list.sizeOf_spec]; omega))
  | .map hdata h => by
    obtain h | hx := h.cons_or
    · exact .inl (.map hdata h)
    · exact .inr (hx.mono (by simp only [Snippet.map.sizeOf_spec]; omega))
  | .function hreading h hbuild => by
    obtain h' | hx := h.cons_or
    · exact .inl (.function hreading h' hbuild)
    · cases Form.build_eq_ok_iff.1 hbuild with
      | dotted =>
        cases h
        exact .inl (.function hreading .scalar hbuild)
      | _ => exact .inr (hx.mono (by simp only [Snippet.call.sizeOf_spec]; omega))
  | .negation hreading hlist h => by
    obtain h | hx := h.cons_or
    · exact .inl (.negation hreading hlist h)
    · exact .inr (hx.mono (by simp only [Snippet.call.sizeOf_spec]; omega))
  | .negationOfItem hreading hcfn h => by
    obtain h | hx := h.cons_or
    · exact .inl (.negationOfItem hreading hcfn h)
    · refine .inr (hx.mono ?_)
      simp only [Snippet.call.sizeOf_spec, Snippet.list.sizeOf_spec, List.cons.sizeOf_spec]
      omega
  | .unavailable hreading h => by
    obtain h | hx := h.cons_or
    · exact .inl (.unavailable hreading h)
    · exact .inr (hx.mono (by simp only [Snippet.call.sizeOf_spec]; omega))

theorem ReadsItems.cons_or {p : Parser} {vs : List Value} {ss : List Snippet} :
    ReadsItems t stack p vs ss →
      ReadsItems t stack ⟨p.inConditions, x :: p.inlining⟩ vs ss ∨ Inlines t stack x (sizeOf ss)
  | .nil => .inl .nil
  | .cons h hs => by
    obtain h | hx := h.cons_or
    · obtain hs | hx := hs.cons_or
      · exact .inl (.cons h hs)
      · exact .inr (hx.mono (by simp only [List.cons.sizeOf_spec]; omega))
    · exact .inr (hx.mono (by simp only [List.cons.sizeOf_spec]; omega))

theorem ReadsFields.cons_or {p : Parser} {vs : List (String × Value)}
    {ss : List (String × Snippet)} : ReadsFields t stack p vs ss →
      ReadsFields t stack ⟨p.inConditions, x :: p.inlining⟩ vs ss ∨ Inlines t stack x (sizeOf ss)
  | .nil => .inl .nil
  | .cons h hs => by
    obtain h | hx := h.cons_or
    · obtain hs | hx := hs.cons_or
      · exact .inl (.cons h hs)
      · exact .inr (hx.mono (by simp only [List.cons.sizeOf_spec]; omega))
    · exact .inr (hx.mono (by simp only [List.cons.sizeOf_spec, Prod.mk.sizeOf_spec]; omega))

theorem ReadsOperand.cons_or {p : Parser} {v : Value} {s : Snippet} :
    ReadsOperand t stack p v s →
      ReadsOperand t stack ⟨p.inConditions, x :: p.inlining⟩ v s ∨
        Inlines t stack x (sizeOf s + 1)
  | .plain ht h => by
    obtain h | hx := h.cons_or
    · exact .inl (.plain ht h)
    · exact .inr (hx.mono (Nat.le_succ _))
  | @ReadsOperand.named _ _ _ name _ _ hn hd h => by
    by_cases hname : name = x
    · subst hname
      exact .inr ⟨_, _, _, rfl, hd, h, Nat.lt_succ_self _⟩
    · obtain h | hx := h.cons_or
      · have hswap : name :: x :: p.inlining ⊆ x :: name :: p.inlining :=
          (List.Perm.swap x name p.inlining).subset
        exact .inl (.named (by simp [hname, hn]) hd (h.of_subset hswap))
      · exact .inr hx

end

end

/-- What a negation negates: its argument, or the first item of a list. -/
def Snippet.negated? : Snippet → Option Snippet
  | .list items => items.head?
  | s => some s

def Evaluation.opposite : Value → Inquiry Value
  | .bool b => return .bool !b
  | other => fault (.negation other)

namespace Stack

open Evaluation (opposite)

variable {stack : Stack} {name : String} {s other : Snippet} {b c : Bool}

/-- While a definition is read, the names that stand for it may count as being replaced: if one were
replaced in it, the definition would be part of itself. -/
theorem reads_of_standsFor (hs : stack.Proper) {definition : Value}
    (h : Reads stack.template stack.id .forConditions definition s) {names : List String}
    (hnames : ∀ name ∈ names, stack.StandsFor name s) :
    Reads stack.template stack.id ⟨true, names⟩ definition s := by
  induction names with
  | nil => exact h
  | cons name names ih =>
    have hrest := ih fun other ho => hnames other (List.mem_cons_of_mem name ho)
    obtain hread | ⟨p, _, s', hp, hd, hread, hsize⟩ := hrest.cons_or (x := name)
    · exact hread
    · -- the name would be replaced by the whole snippet in a part of it
      have hsame := (hnames name (List.mem_cons_self ..)).unique (standsFor_of_reads hs hread hp hd)
      subst hsame
      exact absurd hsize (Nat.lt_irrefl _)

theorem readsOperand_of_standsFor (hs : stack.Proper) (h : stack.StandsFor name s)
    {names : List String} (hnames : ∀ other ∈ names,
      stack.StandsFor other s ∧ TransGen stack.Renames other name) :
    ReadsOperand stack.template stack.id ⟨c, names⟩ (.text name) s := by
  induction h generalizing c names with
  | @definition name s hget ht =>
    have hself := StandsFor.definition hget ht
    have hn : name ∉ names := fun hmem => hself.not_transGen (hnames name hmem).2
    have hall : ∀ other ∈ name :: names, stack.StandsFor other s := by
      rintro other ⟨⟩
      · exact hself
      · exact (hnames other ‹_›).1
    obtain ⟨definition, hd, hread⟩ := hs.exists_reads hget
    exact .named hn hd (.plain (hread.text?_eq.symm.trans ht) (reads_of_standsFor hs hread hall))
  | @renamed name other s hr h ih =>
    have hself := StandsFor.renamed hr h
    have hn : name ∉ names := fun hmem => hself.not_transGen (hnames name hmem).2
    have hall : ∀ third ∈ name :: names,
        stack.StandsFor third s ∧ TransGen stack.Renames third other := by
      rintro third ⟨⟩
      · exact ⟨hself, .single hr⟩
      · exact ⟨(hnames third ‹_›).1, (hnames third ‹_›).2.tail hr⟩
    obtain ⟨definition, hd, hread⟩ := hs.exists_reads hr
    cases hread
    exact .named hn hd (ih hall)

theorem snippet_negation_eq_ok_iff (hs : stack.Proper) {word : String}
    (hw : stack.template.version.reading c word = .negation) {call : Snippet} :
    stack.template.snippet ⟨c, []⟩ stack.id (.map [(word, .text name)]) = .ok call ↔
      ∃ s, stack.StandsFor name s ∧ call = .call ⟨stack.id, word, .negation⟩ s := by
  rw [Template.snippet_eq_ok_iff]
  constructor
  · intro h
    cases h with
    | map hdata _ => cases hw.symm.trans (hdata word _ rfl)
    | function hreading _ _ => cases hw.symm.trans hreading
    | unavailable hreading _ => cases hw.symm.trans hreading
    | negation _ _ h =>
      cases h with
      | plain ht _ => cases ht
      | named _ hd h => exact ⟨_, standsFor_of_reads hs h rfl hd, rfl⟩
  · rintro ⟨s, h, rfl⟩
    exact .negation hw (fun _ => rfl) (readsOperand_of_standsFor hs h (by simp))

theorem snippet_negationOfItem_eq_ok_iff (hs : stack.Proper) {word : String}
    (hw : stack.template.version.reading c word = .negation)
    (hcfn : stack.template.version.isHot = false) {call : Snippet} :
    stack.template.snippet ⟨c, []⟩ stack.id (.map [(word, .list [.text name])]) = .ok call ↔
      ∃ s, stack.StandsFor name s ∧ call = .call ⟨stack.id, word, .negation⟩ (.list [s]) := by
  rw [Template.snippet_eq_ok_iff]
  constructor
  · intro h
    cases h with
    | map hdata _ => cases hw.symm.trans (hdata word _ rfl)
    | function hreading _ _ => cases hw.symm.trans hreading
    | unavailable hreading _ => cases hw.symm.trans hreading
    | negation _ hlist _ => cases hlist hcfn
    | negationOfItem _ _ h =>
      cases h with
      | plain ht _ => cases ht
      | named _ hd h => exact ⟨_, standsFor_of_reads hs h rfl hd, rfl⟩
  · rintro ⟨s, h, rfl⟩
    exact .negationOfItem hw hcfn (readsOperand_of_standsFor hs h (by simp))

theorem opposite_run_eq_ok_iff {find : String → Result Bool} {v : Value} :
    (opposite v).run find = .ok (.bool b) ↔ v = .bool !b := by
  cases v with
  | scalar s =>
    cases s with
    | bool c => cases b <;> cases c <;> simp [opposite, pure]
    | _ => exact ⟨nofun, nofun⟩
  | _ => exact ⟨nofun, nofun⟩

theorem negation_arguments (site : Evaluation.Site) (h : s.negated? = some other) :
    site.negation (Evaluation.arguments stack s) = Evaluation.resolve stack other >>= opposite := by
  cases s with
  | list items =>
    cases items with
    | nil => cases h
    | cons item rest => cases h; rfl
  | _ => cases h; rfl

theorem value_negation_eq_ok_iff {word : String} :
    stack.value (.call ⟨stack.id, word, .negation⟩ s) = .ok (.bool b) ↔
      ∃ o ∈ s.negated?, stack.value o = .ok (.bool !b) := by
  rw [value_own rfl, Evaluation.Site.value]
  cases hn : s.negated? with
  | none =>
    cases s with
    | list items =>
      obtain rfl := List.head?_eq_none_iff.1 hn
      exact ⟨nofun, nofun⟩
    | _ => cases hn
  | some o =>
    rw [negation_arguments _ hn, Inquiry.run_bind, ← value_eq]
    simp only [Option.mem_def, Option.some.injEq, exists_eq_left']
    cases hv : stack.value o with
    | error e => exact ⟨nofun, nofun⟩
    | ok v => exact opposite_run_eq_ok_iff.trans ⟨congrArg _, Except.ok.inj⟩

theorem StandsFor.negation_iff (h : stack.StandsFor name s) :
    (∃ o ∈ s.negated?, stack.value o = .ok (.bool b)) ↔ stack.truthOf name = .ok b ∨
      ∃ item items, s = .list (item :: items) ∧ stack.value item = .ok (.bool b) := by
  rw [h.truthOf_eq_ok_iff]
  cases s with
  | list items =>
    have hlist : ¬stack.value (.list items) = .ok (.bool b) := by
      intro hv
      rw [value_list] at hv
      obtain ⟨_, -, hv⟩ := Run.exists_of_map_ok hv
      cases hv
    cases items with
    | nil => simp [Snippet.negated?, hlist]
    | cons item items => simp [Snippet.negated?, hlist]
  | _ => simp [Snippet.negated?]

/-- The negation of a named condition is true exactly if the condition is false, and false exactly
if it is true, whatever was evaluated before. Only a condition that is defined as a list, which has
no truth, is negated all the same, by the first item of the list. Outside of HOT, where the name
stands in a list of its own, such a condition has no negation either. -/
theorem negation_iff_evaluate (stack : Stack) (hs : stack.Proper) (c : Bool) (word : String)
    (hw : stack.template.version.reading c word = .negation) (name : String) (b : Bool)
    (earlier later : List Request) :
    ((∃ call, stack.template.snippet ⟨c, []⟩ stack.id (.map [(word, .text name)]) = .ok call ∧
        ((stack.resolve call).run (stack.memoAfter earlier)).1 = .ok (.bool b)) ↔
      ((stack.evaluate name).run (stack.memoAfter later)).1 = .ok (!b) ∨
        ∃ item items, stack.StandsFor name (.list (item :: items)) ∧
          stack.value item = .ok (.bool !b)) ∧
    (stack.template.version.isHot = false →
      ((∃ call,
          stack.template.snippet ⟨c, []⟩ stack.id (.map [(word, .list [.text name])]) = .ok call ∧
          ((stack.resolve call).run (stack.memoAfter earlier)).1 = .ok (.bool b)) ↔
        ((stack.evaluate name).run (stack.memoAfter later)).1 = .ok (!b))) := by
  rw [(determines_evaluate name).run_memoAfter]
  constructor
  · simp only [snippet_negation_eq_ok_iff hs hw, resolve_run_memoAfter, ← value_eq]
    constructor
    · rintro ⟨_, ⟨s, h, rfl⟩, hv⟩
      rw [value_negation_eq_ok_iff, h.negation_iff] at hv
      apply hv.imp_right
      rintro ⟨item, items, rfl, hitem⟩
      exact ⟨item, items, h, hitem⟩
    · intro h
      obtain ⟨s, hstands, hs⟩ : ∃ s, stack.StandsFor name s ∧ (stack.truthOf name = .ok (!b) ∨
          ∃ item items, s = .list (item :: items) ∧ stack.value item = .ok (.bool !b)) := by
        obtain h | ⟨item, items, h, hitem⟩ := h
        · obtain ⟨s, hs⟩ := exists_standsFor_of_truthOf h
          exact ⟨s, hs, .inl h⟩
        · exact ⟨_, h, .inr ⟨item, items, rfl, hitem⟩⟩
      exact ⟨_, ⟨s, hstands, rfl⟩, value_negation_eq_ok_iff.2 (hstands.negation_iff.2 hs)⟩
  · intro hcfn
    simp only [snippet_negationOfItem_eq_ok_iff hs hw hcfn, resolve_run_memoAfter, ← value_eq]
    constructor
    · rintro ⟨_, ⟨s, h, rfl⟩, hv⟩
      obtain ⟨_, ⟨⟩, hv⟩ := value_negation_eq_ok_iff.1 hv
      exact h.truthOf_eq_ok_iff.2 hv
    · intro h
      obtain ⟨s, hstands⟩ := exists_standsFor_of_truthOf h
      exact ⟨_, ⟨s, hstands, rfl⟩,
        value_negation_eq_ok_iff.2 ⟨s, rfl, hstands.truthOf_eq_ok_iff.1 h⟩⟩

/-- A condition that is another name for a false one is negated to true, by itself or in a list. -/
theorem negation_of_alias :
    ∃ t stack, Template.ofValue (.map [("AWSTemplateFormatVersion", .text "2010-09-09"),
        ("Conditions", .map [("Live", .map [("Fn::Equals", .list [.text "a", .text "b"])]),
          ("Up", .text "Live")])]) = .ok t ∧
      make ⟨"s"⟩ "s" t [] (StaticResources.toResources []) = .ok stack ∧ stack.Proper ∧
      stack.template.version.reading true "Fn::Not" = .negation ∧
      stack.template.version.isHot = false ∧
      ((stack.evaluate "Up").run (stack.memoAfter [])).1 = .ok false ∧
      ∀ v ∈ [Value.text "Up", .list [.text "Up"]],
        ∃ call, stack.template.snippet ⟨true, []⟩ stack.id (.map [("Fn::Not", v)]) = .ok call ∧
          ((stack.resolve call).run (stack.memoAfter [.truth "Up"])).1 = .ok (.bool true) := by
  have hboth (stack : Stack) (hs : stack.Proper)
      (hw : stack.template.version.reading true "Fn::Not" = .negation)
      (hcfn : stack.template.version.isHot = false)
      (hup : ((stack.evaluate "Up").run (stack.memoAfter [])).1 = .ok false) :
      ∀ v ∈ [Value.text "Up", .list [.text "Up"]],
        ∃ call, stack.template.snippet ⟨true, []⟩ stack.id (.map [("Fn::Not", v)]) = .ok call ∧
          ((stack.resolve call).run (stack.memoAfter [.truth "Up"])).1 = .ok (.bool true) := by
    have h := negation_iff_evaluate stack hs true "Fn::Not" hw "Up" true [.truth "Up"] []
    intro v hv
    obtain rfl | hv := List.mem_cons.1 hv
    · exact h.1.2 (.inl hup)
    · obtain rfl := List.mem_singleton.1 hv
      exact (h.2 hcfn).2 hup
  exact ⟨_, _, rfl, rfl, rfl, rfl, rfl, rfl, hboth _ rfl rfl rfl rfl⟩

/-- A condition that is defined as a list has no truth, and is negated by the first item. -/
theorem negation_of_list :
    ∃ t stack call, Template.ofValue (.map [("heat_template_version", .text "2016-10-14"),
        ("conditions", .map [("listed", .list [.bool true])])]) = .ok t ∧
      make ⟨"s"⟩ "s" t [] (StaticResources.toResources []) = .ok stack ∧
      ((stack.evaluate "listed").run []).1 = .error (.bare (.conditionResult "listed")) ∧
      t.snippet .ordinary stack.id (.map [("not", .text "listed")]) = .ok call ∧
      ((stack.resolve call).run []).1 = .ok (.bool false) :=
  ⟨_, _, _, rfl, rfl, rfl, rfl, rfl⟩

end Stack

end Orchestration
