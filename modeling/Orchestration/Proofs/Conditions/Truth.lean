import Mathlib.Data.Finset.Card
import Mathlib.Logic.Relation
import Orchestration.Stack.Memo

/-!
The truth of conditions without a memo: every condition is evaluated again whenever it is asked
for, below those that are under way. What a condition consults are the conditions that its
evaluation asks for. Main statements: a truth that is found does not depend on the conditions under
way, as long as none of them is consulted, and what has a truth consults nothing in a circle.
-/

namespace Orchestration

theorem card_remaining_lt {all under : List String} {name : String} (h : name ∈ all)
    (hu : name ∉ under) :
    (all.toFinset \ (name :: under).toFinset).card < (all.toFinset \ under.toFinset).card := by
  refine Finset.card_lt_card (Finset.ssubset_iff_subset_ne.2 ⟨?_, ?_⟩)
  · intro other
    simp +contextual
  · intro he
    have hn : name ∈ all.toFinset \ under.toFinset := by simp [h, hu]
    simp [← he] at hn

namespace Inquiry

variable {α : Type} {find find' : String → Result Bool} {known known' : String → Option Bool}

def found (find : String → Result Bool) (name : String) : Option Bool := (find name).toOption

theorem found_eq_some {name : String} {b : Bool} :
    found find name = some b ↔ find name = .ok b := by
  unfold found
  cases find name <;> simp [Except.toOption]

theorem found_eq_none {name : String} {e : Error} (h : find name = .error e) :
    found find name = none := by simp [found, h, Except.toOption]

@[simp] theorem run_done (r : Result α) : (done r).run find = r := rfl

theorem run_ask (name : String) (next : Bool → Inquiry α) :
    (ask name next).run find = (find name >>= fun b => (next b).run find) := rfl

theorem run_truth (name : String) : (truth name).run find = find name := by
  rw [truth, run_ask]
  cases find name <;> rfl

theorem asked_congr (q : Inquiry α) (h : ∀ name ∈ q.asked known, known' name = known name) :
    q.asked known' = q.asked known := by
  induction q with
  | done r => rfl
  | ask name next ih =>
    simp only [asked] at h ⊢
    rw [h name (by simp)]
    cases hk : known name with
    | none => rfl
    | some b => simp only [ih b fun other ho => h other (by simp [hk, ho])]

theorem run_congr (q : Inquiry α) (h : ∀ name ∈ q.asked (found find), find' name = find name) :
    q.run find' = q.run find := by
  induction q with
  | done r => rfl
  | ask name next ih =>
    simp only [asked] at h
    rw [run_ask, run_ask, h name (by simp)]
    cases hf : find name with
    | error e => rfl
    | ok b => exact ih b fun other ho => h other (by simp [found_eq_some.2 hf, ho])

theorem ok_of_mem_asked {q : Inquiry α} {a : α} (h : q.run find = .ok a) {name : String}
    (hn : name ∈ q.asked (found find)) : ∃ b, find name = .ok b := by
  induction q with
  | done r => simp [asked] at hn
  | ask first next ih =>
    rw [run_ask] at h
    cases hf : find first with
    | error e =>
      rw [hf] at h
      cases h
    | ok b =>
      rw [hf] at h
      simp only [asked, found_eq_some.2 hf, List.mem_cons] at hn
      obtain rfl | hn := hn
      · exact ⟨b, hf⟩
      · exact ih b h hn

theorem run_of_error {q : Inquiry α} {name : String} {e : Error}
    (hn : name ∈ q.asked (found find)) (he : find name = .error e) : q.run find = .error e := by
  induction q with
  | done r => simp [asked] at hn
  | ask first next ih =>
    rw [run_ask]
    cases hf : find first with
    | error e' =>
      simp only [asked, found_eq_none hf, List.mem_singleton] at hn
      rw [← hf, ← hn, he]
      rfl
    | ok b =>
      simp only [asked, found_eq_some.2 hf, List.mem_cons] at hn
      obtain rfl | hn := hn
      · rw [he] at hf
        cases hf
      · exact ih b hn

end Inquiry

namespace Stack

open Inquiry (found)

variable (stack : Stack)

theorem condition_mem_keys {name : String} {definition : Snippet}
    (h : stack.conditions.get? name = some definition) : name ∈ stack.conditions.keys :=
  (Fields.contains_iff _ _).1 (by simp [Fields.contains, h])

theorem remaining_lt {under : List String} {name : String} (h : name ∈ stack.conditions.keys)
    (hu : name ∉ under) :
    (stack.conditions.keys.toFinset \ (name :: under).toFinset).card <
      (stack.conditions.keys.toFinset \ under.toFinset).card := card_remaining_lt h hu

def truthUnder (under : List String) (name : String) : Result Bool :=
  match _h : stack.conditions.get? name with
  | none => fault (.conditionName name)
  | some definition =>
    if name ∈ under then .error (.bare (.circularCondition name))
    else (Evaluation.truth stack name definition).run fun other => truthUnder (name :: under) other
termination_by (stack.conditions.keys.toFinset \ under.toFinset).card
decreasing_by exact stack.remaining_lt (stack.condition_mem_keys _h) ‹_›

def truthOf (name : String) : Result Bool := stack.truthUnder [] name

/-- The conditions that the evaluation of a condition asks for. -/
def consults (name : String) : List String :=
  match stack.conditions.get? name with
  | none => []
  | some definition => (Evaluation.truth stack name definition).asked (found stack.truthOf)

variable {stack} {under : List String} {name : String} {definition : Snippet} {b : Bool}

theorem truthUnder_of_none (h : stack.conditions.get? name = none) :
    stack.truthUnder under name = fault (.conditionName name) := by
  rw [truthUnder]
  split <;> simp_all

theorem truthUnder_of_mem (h : stack.conditions.get? name = some definition)
    (hu : name ∈ under) : stack.truthUnder under name = .error (.bare (.circularCondition name)) := by
  rw [truthUnder]
  split <;> simp_all

theorem truthUnder_of_notMem (h : stack.conditions.get? name = some definition)
    (hu : name ∉ under) : stack.truthUnder under name =
      (Evaluation.truth stack name definition).run (stack.truthUnder (name :: under)) := by
  rw [truthUnder]
  split <;> simp_all

theorem truthUnder_eq_ok (h : stack.truthUnder under name = .ok b) :
    ∃ definition, stack.conditions.get? name = some definition ∧ name ∉ under ∧
      (Evaluation.truth stack name definition).run (stack.truthUnder (name :: under)) = .ok b := by
  cases hd : stack.conditions.get? name with
  | none => simp [truthUnder_of_none hd, fault] at h
  | some definition =>
    by_cases hu : name ∈ under
    · simp [truthUnder_of_mem hd hu] at h
    · exact ⟨definition, rfl, hu, by rw [← truthUnder_of_notMem hd hu, h]⟩

theorem truthUnder_of_subset {fewer : List String} (hs : fewer ⊆ under)
    (h : stack.truthUnder under name = .ok b) : stack.truthUnder fewer name = .ok b := by
  induction under, name using truthUnder.induct stack generalizing fewer b with
  | case1 under name hd => simp [truthUnder_of_none hd, fault] at h
  | case2 under name definition hd hu => simp [truthUnder_of_mem hd hu] at h
  | case3 under name definition hd hu ih =>
    rw [truthUnder_of_notMem hd hu] at h
    rw [truthUnder_of_notMem hd fun hf => hu (hs hf), ← h]
    apply Inquiry.run_congr
    intro other ho
    obtain ⟨c, hc⟩ := Inquiry.ok_of_mem_asked h ho
    rw [ih other (List.cons_subset_cons name hs) hc, hc]

theorem truthOf_of_truthUnder (h : stack.truthUnder under name = .ok b) :
    stack.truthOf name = .ok b := truthUnder_of_subset (List.nil_subset under) h

theorem consults_eq (hd : stack.conditions.get? name = some definition)
    (h : (Evaluation.truth stack name definition).run (stack.truthUnder (name :: under)) = .ok b) :
    stack.consults name =
      (Evaluation.truth stack name definition).asked
        (found (stack.truthUnder (name :: under))) := by
  simp only [consults, hd]
  apply Inquiry.asked_congr
  intro other ho
  obtain ⟨c, hc⟩ := Inquiry.ok_of_mem_asked h ho
  rw [Inquiry.found_eq_some.2 hc, Inquiry.found_eq_some.2 (truthOf_of_truthUnder hc)]

theorem truthUnder_of_mem_consults (h : stack.truthUnder under name = .ok b) {other : String}
    (ho : other ∈ stack.consults name) : ∃ c, stack.truthUnder (name :: under) other = .ok c := by
  obtain ⟨definition, hd, -, hr⟩ := truthUnder_eq_ok h
  rw [consults_eq hd hr] at ho
  exact Inquiry.ok_of_mem_asked hr ho

/-- Conditions that come to be under way do not change a truth if they are not among those that it
rests on. -/
theorem truthUnder_append (known : String → Prop) {more : List String}
    (hk : ∀ name, known name → ∀ other ∈ stack.consults name, known other)
    (hm : ∀ name ∈ more, ¬known name) (hn : known name)
    (h : stack.truthUnder under name = .ok b) : stack.truthUnder (under ++ more) name = .ok b := by
  induction under, name using truthUnder.induct stack generalizing b with
  | case1 under name hd => simp [truthUnder_of_none hd, fault] at h
  | case2 under name definition hd hu => simp [truthUnder_of_mem hd hu] at h
  | case3 under name definition hd hu ih =>
    have hum : name ∉ under ++ more := by
      rw [List.mem_append]
      rintro (hu' | hm')
      · exact hu hu'
      · exact hm name hm' hn
    rw [truthUnder_of_notMem hd hu] at h
    rw [truthUnder_of_notMem hd hum, ← h]
    apply Inquiry.run_congr
    intro other ho
    obtain ⟨c, hc⟩ := Inquiry.ok_of_mem_asked h ho
    rw [← consults_eq hd h] at ho
    rw [hc]
    exact ih other (hk name hn other ho) hc

theorem truthUnder_of_untrue (hu : ∀ other ∈ under, ¬∃ b, stack.truthOf other = .ok b)
    (h : stack.truthOf name = .ok b) : stack.truthUnder under name = .ok b := by
  have hclosed : ∀ name, (∃ b, stack.truthOf name = .ok b) → ∀ other ∈ stack.consults name,
      ∃ b, stack.truthOf other = .ok b := by
    rintro name ⟨b, hb⟩ other ho
    obtain ⟨c, hc⟩ := truthUnder_of_mem_consults hb ho
    exact ⟨c, truthOf_of_truthUnder hc⟩
  exact truthUnder_append (fun name => ∃ b, stack.truthOf name = .ok b) hclosed hu ⟨b, h⟩ h

theorem truthOf_eq_ok_iff (hd : stack.conditions.get? name = some definition) :
    stack.truthOf name = .ok b ↔
      (Evaluation.truth stack name definition).run stack.truthOf = .ok b := by
  have hrun : stack.truthOf name =
      (Evaluation.truth stack name definition).run (stack.truthUnder [name]) :=
    truthUnder_of_notMem hd List.not_mem_nil
  have honly : ∀ c, stack.truthOf name = .ok c →
      (Evaluation.truth stack name definition).run stack.truthOf = .ok c := by
    intro c h
    rw [← h, hrun]
    refine Inquiry.run_congr _ fun other ho => ?_
    obtain ⟨_, hother⟩ := Inquiry.ok_of_mem_asked (hrun.symm.trans h) ho
    rw [hother, truthOf_of_truthUnder hother]
  refine ⟨honly b, fun h => ?_⟩
  by_contra hno
  have huntrue : ∀ other ∈ [name], ¬∃ c, stack.truthOf other = .ok c := by
    rintro other ho ⟨c, hc⟩
    obtain rfl := List.mem_singleton.1 ho
    exact hno (hc.trans ((honly c hc).symm.trans h))
  -- so the truths that the definition asks for are found while the condition is under way
  refine hno (hrun.trans ((Inquiry.run_congr _ fun other ho => ?_).trans h))
  obtain ⟨_, hother⟩ := Inquiry.ok_of_mem_asked h ho
  rw [hother, truthUnder_of_untrue huntrue hother]

/-- What has a truth leads to itself by no chain of consultations. -/
theorem acc_consults (h : stack.truthUnder under name = .ok b) :
    Acc (fun other name => other ∈ stack.consults name) name := by
  induction under, name using truthUnder.induct stack generalizing b with
  | case1 under name hd => simp [truthUnder_of_none hd, fault] at h
  | case2 under name definition hd hu => simp [truthUnder_of_mem hd hu] at h
  | case3 under name definition hd hu ih =>
    refine ⟨name, fun other ho => ?_⟩
    obtain ⟨c, hc⟩ := truthUnder_of_mem_consults h ho
    exact ih other hc

end Stack

end Orchestration
