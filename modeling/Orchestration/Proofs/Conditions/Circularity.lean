import Orchestration.Proofs.Conditions.History

namespace Orchestration

namespace Snippet

mutual

def namedConditions : Snippet → List String
  | .scalar _ => []
  | .list items => itemConditions items
  | .map fields => fieldConditions fields
  | .call c args =>
    args.namedConditions ++ match c.fn, args with
      | .connective _, .list operands => operands.filterMap text?
      | .condition, .text name => [name]
      | _, _ => []

def itemConditions : List Snippet → List String
  | [] => []
  | s :: rest => s.namedConditions ++ itemConditions rest

def fieldConditions : List (String × Snippet) → List String
  | [] => []
  | (_, s) :: rest => s.namedConditions ++ fieldConditions rest

end

end Snippet

namespace Stack

open Relation (TransGen)

variable (stack : Stack)

def RefersTo (name other : String) : Prop :=
  ∃ definition, stack.conditions.get? name = some definition ∧
    (definition = .text other ∨ other ∈ definition.namedConditions)

def Follows (name other : String) : Prop := other ∈ stack.consults name

variable {stack} {under : List String} {name : String}

theorem not_transGen_of_truthOf {b : Bool} (h : stack.truthOf name = .ok b) :
    ¬TransGen stack.Follows name name := by
  intro hc
  have hc' : TransGen (Function.swap stack.Follows) name name := Relation.transGen_swap.2 hc
  have hacc : Acc (TransGen (Function.swap stack.Follows)) name := (acc_consults h).transGen
  induction hacc with
  | intro name _ ih => exact ih name hc' h hc hc'

theorem asked_eq_of_untrue (hu : ∀ other ∈ under, ¬∃ b, stack.truthOf other = .ok b)
    (q : Inquiry Bool) :
    q.asked (Inquiry.found (stack.truthUnder under)) = q.asked (Inquiry.found stack.truthOf) := by
  apply Inquiry.asked_congr
  intro other _
  cases ht : stack.truthOf other with
  | ok b =>
    have hb := truthUnder_of_untrue hu ht
    rw [Inquiry.found_eq_some.2 ht, Inquiry.found_eq_some.2 hb]
  | error e =>
    rw [Inquiry.found_eq_none ht]
    cases hu : stack.truthUnder under other with
    | error e' => exact Inquiry.found_eq_none hu
    | ok b => simp [truthOf_of_truthUnder hu] at ht

theorem truthUnder_of_circle {circle : String → Prop}
    (hc : ∀ name, circle name → ∃ other, stack.Follows name other ∧ circle other)
    (ht : ∀ name, circle name → ¬∃ b, stack.truthOf name = .ok b)
    (hu : ∀ other ∈ under, circle other) (hn : circle name) :
    ∃ other, stack.truthUnder under name = .error (.bare (.circularCondition other)) := by
  induction under, name using truthUnder.induct stack with
  | case1 under name hd =>
    obtain ⟨other, ho, -⟩ := hc name hn
    simp [Follows, consults, hd] at ho
  | case2 under name definition hd hun => exact ⟨name, truthUnder_of_mem hd hun⟩
  | case3 under name definition hd hun ih =>
    obtain ⟨other, ho, hother⟩ := hc name hn
    have hu' : ∀ other ∈ name :: under, circle other := by
      rintro other ⟨⟩
      · exact hn
      · exact hu other ‹_›
    obtain ⟨third, h3⟩ := ih other hu' hother
    refine ⟨third, ?_⟩
    rw [truthUnder_of_notMem hd hun]
    simp only [Follows, consults, hd] at ho
    rw [← asked_eq_of_untrue fun other h => ht other (hu' other h)] at ho
    exact Inquiry.run_of_error ho h3

theorem exists_follows_of_transGen (h : TransGen stack.Follows name name) :
    ∃ other, stack.Follows name other ∧ TransGen stack.Follows other other := by
  obtain ⟨other, ho, hr⟩ := TransGen.head'_iff.1 h
  exact ⟨other, ho, TransGen.tail' hr ho⟩

theorem follows_of_truth {other : String} {definition : Snippet} {next : Bool → Inquiry Bool}
    (hd : stack.conditions.get? name = some definition)
    (h : Evaluation.truth stack name definition = .ask other next) : stack.Follows name other := by
  simp [Follows, consults, hd, h, Inquiry.asked]

theorem mem_keys_of_follows {other : String} (h : stack.Follows name other) :
    name ∈ stack.conditions.keys := by
  cases hd : stack.conditions.get? name with
  | none => simp [Follows, consults, hd] at h
  | some definition => exact stack.condition_mem_keys hd

theorem forM_eq_ok {α : Type} {check : α → Result Unit} {as : List α}
    (h : as.forM check = .ok ()) : ∀ a ∈ as, check a = .ok () := by
  induction as with
  | nil => simp
  | cons a as ih =>
    obtain ⟨_, ha, hrest⟩ := Run.exists_of_bind_ok h
    rintro other ⟨⟩
    · exact ha
    · exact ih hrest other ‹_›

theorem truthCheck_of_validity (h : stack.validity = .ok ()) (hn : name ∈ stack.conditions.keys) :
    stack.truthCheck name = .ok () := by
  obtain ⟨_, -, hchecks⟩ := Run.exists_of_bind_ok h
  exact forM_eq_ok hchecks name hn

theorem truthOf_of_transGen (h : TransGen stack.Follows name name) :
    ∃ other, stack.truthOf name = .error (.bare (.circularCondition other)) := by
  have hc : ∀ name, TransGen stack.Follows name name →
      ∃ other, stack.Follows name other ∧ TransGen stack.Follows other other :=
    fun name => exists_follows_of_transGen
  have ht : ∀ name, TransGen stack.Follows name name → ¬∃ b, stack.truthOf name = .ok b := by
    rintro name hc ⟨b, hb⟩
    exact not_transGen_of_truthOf hb hc
  exact truthUnder_of_circle hc ht (by simp) h

/-- A stack whose conditions are valid has no condition that leads to itself by the references that
evaluation follows. -/
theorem not_circular_of_validateConditions (stack : Stack) (earlier : List Request)
    (h : (stack.validateConditions.run ((stack.answers earlier).run []).2).1 = .ok ()) :
    ∀ name, ¬TransGen stack.Follows name name := by
  intro name hc
  obtain ⟨memo, hrun, hs⟩ := stack.answers_run_empty earlier
  rw [hrun] at h
  obtain ⟨after, hval, -⟩ := stack.determines_validateConditions memo hs
  rw [hval] at h
  obtain ⟨other, ho, -⟩ := exists_follows_of_transGen hc
  have hcheck := truthCheck_of_validity h (mem_keys_of_follows ho)
  obtain ⟨third, ht⟩ := truthOf_of_transGen hc
  simp [truthCheck, ht] at hcheck

theorem not_circular_chain :
    ∃ t stack, Template.ofValue (.map [("heat_template_version", .text "2016-10-14"),
        ("conditions", .map [("a", .map [("or", .list [.text "b", .bool false])]),
          ("b", .text "c"), ("c", .bool false)])]) = .ok t ∧
      make ⟨"s"⟩ "s" t [] (StaticResources.toResources []) = .ok stack ∧
      (stack.validateConditions.run ((stack.answers [.truth "b"]).run []).2).1 = .ok () ∧
      stack.Follows "a" "b" ∧ stack.Follows "b" "c" ∧
      ∀ name, ¬TransGen stack.Follows name name := by
  refine ⟨_, _, rfl, rfl, rfl, ?_, ?_, not_circular_of_validateConditions _ [.truth "b"] rfl⟩
  · exact follows_of_truth rfl rfl
  · exact follows_of_truth rfl rfl

/-- Behind an operand that decides, a condition can name itself and be valid. -/
theorem circular_of_validateConditions :
    ∃ t stack, Template.ofValue (.map [("heat_template_version", .text "2016-10-14"),
        ("conditions", .map [("a", .map [("or", .list [.bool true, .text "a"])])])]) = .ok t ∧
      make ⟨"s"⟩ "s" t [] (StaticResources.toResources []) = .ok stack ∧
      (stack.validateConditions.run []).1 = .ok () ∧ TransGen stack.RefersTo "a" "a" := by
  refine ⟨_, _, rfl, rfl, rfl, .single ⟨_, rfl, .inr ?_⟩⟩
  decide

end Stack

end Orchestration
