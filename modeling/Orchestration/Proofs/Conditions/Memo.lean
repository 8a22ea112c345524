import Mathlib.Data.List.Perm.Subperm
import Orchestration.Proofs.Conditions.Truth
import Orchestration.Proofs.Run

/-!
The memo of conditions. A sound memo holds truths that are also found without it, and with each of
them the truths that it rests on. Main statement: whatever was asked of a stack before, an answer
is the one that an empty memo leads to.
-/

namespace Orchestration

namespace Memo

def Knows (memo : Memo) (name : String) (b : Bool) : Prop := memo.get? name = some (.resolved b)

structure Sound (stack : Stack) (under : List String) (memo : Memo) : Prop where
  nodup : (Fields.keys memo).Nodup
  inProgress : ∀ name, memo.get? name = some .inProgress ↔ name ∈ under
  truth : ∀ {name b}, memo.Knows name b → stack.truthOf name = .ok b
  rests : ∀ {name b}, memo.Knows name b → ∀ other ∈ stack.consults name, ∃ c, memo.Knows other c

def Extends (later earlier : Memo) : Prop := ∀ name b, earlier.Knows name b → later.Knows name b

theorem Extends.refl (memo : Memo) : memo.Extends memo := fun _ _ h => h

theorem Extends.trans {first second third : Memo} (h : third.Extends second)
    (h' : second.Extends first) : third.Extends first := fun name b hk => h name b (h' name b hk)

theorem sound_empty (stack : Stack) : Sound stack [] [] := by
  constructor <;> simp [Knows, Fields.keys]

variable {stack : Stack} {under : List String} {memo : Memo} {name : String} {b : Bool}

theorem truthUnder_of_knows (hs : Sound stack under memo) (hk : memo.Knows name b) :
    stack.truthUnder under name = .ok b := by
  have hu : ∀ other ∈ under, ¬∃ c, memo.Knows other c := by
    rintro other ho ⟨c, hc⟩
    simp [Knows, (hs.inProgress other).2 ho] at hc
  exact Stack.truthUnder_append (fun name => ∃ b, memo.Knows name b) (fun name ⟨b, h⟩ => hs.rests h)
    hu ⟨b, hk⟩ (hs.truth hk)

theorem knows_insert_of_ne {other : String} {status : Status} (h : name ≠ other) :
    Knows (Fields.insert memo name status) other b ↔ memo.Knows other b := by
  simp [Knows, Fields.get?_insert, h]

theorem sound_insert_inProgress (hs : Sound stack under memo) (hn : memo.get? name = none) :
    Sound stack (name :: under) (memo.insert name .inProgress) := by
  have hne : ∀ {other c}, Knows (Fields.insert memo name .inProgress) other c →
      name ≠ other ∧ memo.Knows other c := by
    intro other c h
    by_cases he : name = other
    · simp [Knows, Fields.get?_insert, he] at h
    · exact ⟨he, (knows_insert_of_ne he).1 h⟩
  constructor
  · exact Fields.nodup_keys_insert hs.nodup _ _
  · intro other
    rw [Fields.get?_insert]
    by_cases he : name = other
    · simp [he]
    · simp [he, hs.inProgress, Ne.symm he]
  · exact fun h => hs.truth (hne h).2
  · intro other c h third ht
    obtain ⟨d, hd⟩ := hs.rests (hne h).2 third ht
    refine ⟨d, (knows_insert_of_ne ?_).2 hd⟩
    rintro rfl
    simp [Knows, hn] at hd

theorem sound_insert_resolved (hs : Sound stack (name :: under) memo) (hu : name ∉ under)
    (ht : stack.truthOf name = .ok b)
    (hr : ∀ other ∈ stack.consults name, ∃ c, memo.Knows other c) :
    Sound stack under (memo.insert name (.resolved b)) := by
  have hk : ∀ {other c}, memo.Knows other c →
      Knows (Fields.insert memo name (.resolved b)) other c := by
    intro other c h
    refine (knows_insert_of_ne ?_).2 h
    rintro rfl
    have := (hs.inProgress name).2 (by simp)
    simp [Knows, this] at h
  constructor
  · exact Fields.nodup_keys_insert hs.nodup _ _
  · intro other
    rw [Fields.get?_insert]
    by_cases he : name = other
    · simp [← he, hu]
    · simp [he, hs.inProgress, Ne.symm he]
  · intro other c h
    by_cases he : name = other
    · subst he
      simp only [Knows, Fields.get?_insert, ↓reduceIte, Option.some.injEq, Status.resolved.injEq] at h
      rw [ht, h]
    · exact hs.truth ((knows_insert_of_ne he).1 h)
  · intro other c h third h3
    by_cases he : name = other
    · subst he
      obtain ⟨d, hd⟩ := hr third h3
      exact ⟨d, hk hd⟩
    · obtain ⟨d, hd⟩ := hs.rests ((knows_insert_of_ne he).1 h) third h3
      exact ⟨d, hk hd⟩

theorem sound_erase (hs : Sound stack (name :: under) memo) (hu : name ∉ under) :
    Sound stack under (memo.erase name) := by
  have hself : Fields.get? (Fields.erase memo name) name = none :=
    Fields.get?_erase_self hs.nodup name
  have hk : ∀ {other c}, Knows (Fields.erase memo name) other c ↔ memo.Knows other c := by
    intro other c
    by_cases he : name = other
    · subst he
      simp [Knows, hself, (hs.inProgress name).2]
    · simp [Knows, Fields.get?_erase_of_ne memo he]
  constructor
  · exact hs.nodup.sublist (Fields.keys_erase_sublist memo name)
  · intro other
    by_cases he : name = other
    · simp [← he, hself, hu]
    · simp [Fields.get?_erase_of_ne memo he, hs.inProgress, Ne.symm he]
  · exact fun h => hs.truth (hk.1 h)
  · intro other c h third ht
    obtain ⟨d, hd⟩ := hs.rests (hk.1 h) third ht
    exact ⟨d, hk.2 hd⟩

end Memo

namespace Evaluation

open Memo (Sound Knows Extends)

variable {α : Type} {stack : Stack} {under : List String} {memo : Memo} {name : String}

/-- What a step of an evaluation does to a sound memo: it finds what is found without a memo, and
leaves a sound memo that has forgotten nothing. -/
def Finds (stack : Stack) (under : List String) (memo : Memo) (x : Evaluation α) (r : Result α)
    (after : Memo) : Prop :=
  x.run memo = (r, after) ∧ Sound stack under after ∧ after.Extends memo

def Settles (stack : Stack) (under : List String) (memo : Memo) (x : Evaluation Bool)
    (name : String) : Prop :=
  ∃ after, Finds stack under memo x (stack.truthUnder under name) after ∧
    ∀ b, stack.truthUnder under name = .ok b → after.Knows name b

theorem run_finds {find : String → Evaluation Bool}
    (hf : ∀ memo name, Sound stack under memo → Settles stack under memo (find name) name)
    (q : Inquiry α) (hs : Sound stack under memo) :
    ∃ after, Finds stack under memo (q.run find) (q.run (stack.truthUnder under)) after ∧
      ∀ a, q.run (stack.truthUnder under) = .ok a →
        ∀ other ∈ q.asked (Inquiry.found (stack.truthUnder under)), ∃ c, after.Knows other c := by
  induction q generalizing memo with
  | done r => exact ⟨memo, ⟨rfl, hs, .refl memo⟩, by simp [Inquiry.asked]⟩
  | ask name next ih =>
    obtain ⟨mid, ⟨hrun, hmid, hext⟩, hk⟩ := hf memo name hs
    cases ht : stack.truthUnder under name with
    | error e =>
      rw [ht] at hrun
      refine ⟨mid, ⟨?_, hmid, hext⟩, ?_⟩
      · rw [Inquiry.run_ask, ht]
        exact Run.bind_error hrun
      · simp [Inquiry.run_ask, ht, bind, Except.bind]
    | ok b =>
      rw [ht] at hrun
      obtain ⟨after, ⟨hrun', hafter, hext'⟩, hk'⟩ := ih b hmid
      refine ⟨after, ⟨?_, hafter, hext'.trans hext⟩, ?_⟩
      · rw [Inquiry.run_ask, ht]
        exact (Run.bind_ok hrun).trans hrun'
      · intro a ha other ho
        rw [Inquiry.run_ask, ht] at ha
        simp only [Inquiry.asked, Inquiry.found_eq_some.2 ht, List.mem_cons] at ho
        obtain rfl | ho := ho
        · exact ⟨b, hext' _ _ (hk b ht)⟩
        · exact hk' a ha other ho

theorem tracked_run (x : Evaluation Bool) : (tracked name x).run memo =
    match x.run (memo.insert name .inProgress) with
    | (.ok b, after) => (.ok b, after.insert name (.resolved b))
    | (.error e, after) => (.error e, after.erase name) := by
  cases hx : x.run (memo.insert name .inProgress) with
  | mk outcome after =>
    have hmark : (modify fun memo : Memo => memo.insert name .inProgress : StateM Memo Unit) memo =
      ((), memo.insert name .inProgress) := rfl
    refine (Run.bind_state hmark).trans ((Run.bind_state hx).trans ?_)
    cases outcome <;> rfl

theorem tracked_settles {find : String → Evaluation Bool} {definition : Snippet}
    (hd : stack.conditions.get? name = some definition)
    (hf : ∀ memo other, Sound stack (name :: under) memo →
      Settles stack (name :: under) memo (find other) other)
    (hs : Sound stack under memo) (hn : memo.get? name = none) :
    Settles stack under memo (tracked name ((truth stack name definition).run find)) name := by
  have hu : name ∉ under := by
    intro hu
    rw [(hs.inProgress name).2 hu] at hn
    cases hn
  have hstart := Memo.sound_insert_inProgress hs hn
  -- the mark of the condition stands while its definition is evaluated
  obtain ⟨mid, ⟨hrun, hmid, hext⟩, hk⟩ := run_finds hf (truth stack name definition) hstart
  rw [← Stack.truthUnder_of_notMem hd hu] at hrun hk
  have hext' : mid.Extends memo := by
    intro other c ho
    refine hext other c ((Memo.knows_insert_of_ne ?_).2 ho)
    rintro rfl
    simp [Knows, hn] at ho
  have hne : ∀ {other c}, mid.Knows other c → name ≠ other := by
    rintro other c ho rfl
    simp [Knows, (hmid.inProgress name).2] at ho
  unfold Settles
  cases ht : stack.truthUnder under name with
  | error e =>
    rw [ht] at hrun
    refine ⟨_, ⟨by rw [tracked_run, hrun], Memo.sound_erase hmid hu, fun other c ho => ?_⟩, by simp⟩
    have := hext' other c ho
    simpa [Knows, Fields.get?_erase_of_ne mid (hne this)] using this
  | ok b =>
    rw [ht] at hrun
    have hrests := Stack.consults_eq hd ((Stack.truthUnder_of_notMem hd hu).symm.trans ht)
    refine ⟨_, ⟨by rw [tracked_run, hrun], ?_, fun other c ho => ?_⟩, ?_⟩
    · exact Memo.sound_insert_resolved hmid hu (Stack.truthOf_of_truthUnder ht) (hrests ▸ hk b ht)
    · have := hext' other c ho
      exact (Memo.knows_insert_of_ne (hne this)).2 this
    · rintro c ⟨⟩
      simp [Knows, Fields.get?_insert]

theorem fuel_pos {fuel : Nat} (hu : under.Nodup) (hk : under ⊆ stack.conditions.keys)
    (hf : stack.conditions.length ≤ fuel + under.length) (hn : name ∈ stack.conditions.keys)
    (hun : name ∉ under) : fuel ≠ 0 := by
  rintro rfl
  have hsub : (name :: under).Subperm stack.conditions.keys :=
    (List.nodup_cons.2 ⟨hun, hu⟩).subperm (List.cons_subset.2 ⟨hn, hk⟩)
  have := hsub.length_le
  simp [Fields.keys] at this
  omega

section

variable {new : Snippet → Evaluation Bool} {definition : Snippet}

theorem retrieve_of_none (hd : stack.conditions.get? name = none) :
    (retrieve stack name new).run memo = (fault (.conditionName name), memo) := by
  simp only [retrieve, hd]
  rfl

theorem retrieve_run (hd : stack.conditions.get? name = some definition) :
    (retrieve stack name new).run memo = match memo.get? name with
      | some (.resolved b) => (.ok b, memo)
      | some .inProgress => (.error (.bare (.circularCondition name)), memo)
      | none => (new definition).run memo := by
  have hget : (get : Evaluation Memo).run memo = (.ok memo, memo) := rfl
  simp only [retrieve, hd]
  refine (Run.bind_ok hget).trans ?_
  cases memo.get? name with
  | none => rfl
  | some status => cases status <;> rfl

end

theorem retrieve_settles {new : Snippet → Evaluation Bool} (hs : Sound stack under memo)
    (hnew : ∀ definition, stack.conditions.get? name = some definition → memo.get? name = none →
      Settles stack under memo (new definition) name) :
    Settles stack under memo (retrieve stack name new) name := by
  unfold Settles at hnew ⊢
  cases hd : stack.conditions.get? name with
  | none =>
    rw [Stack.truthUnder_of_none hd]
    exact ⟨memo, ⟨retrieve_of_none hd, hs, .refl memo⟩, by simp [fault]⟩
  | some definition =>
    have hrun : (retrieve stack name new).run memo = _ := retrieve_run hd
    cases hm : memo.get? name with
    | none =>
      obtain ⟨after, ⟨hrun', hafter, hext⟩, hk⟩ := hnew definition hd hm
      rw [hm] at hrun
      exact ⟨after, ⟨hrun.trans hrun', hafter, hext⟩, hk⟩
    | some status =>
      rw [hm] at hrun
      cases status with
      | inProgress =>
        rw [Stack.truthUnder_of_mem hd ((hs.inProgress name).1 hm)]
        exact ⟨memo, ⟨hrun, hs, .refl memo⟩, by simp⟩
      | resolved b =>
        rw [Memo.truthUnder_of_knows hs hm]
        exact ⟨memo, ⟨hrun, hs, .refl memo⟩, by rintro c ⟨⟩; exact hm⟩

theorem evaluate_settles {fuel : Nat} (hu : under.Nodup) (hk : under ⊆ stack.conditions.keys)
    (hf : stack.conditions.length ≤ fuel + under.length) (hs : Sound stack under memo) :
    Settles stack under memo (evaluate stack fuel name) name := by
  have hun : memo.get? name = none → name ∉ under := by
    intro hm h
    rw [(hs.inProgress name).2 h] at hm
    cases hm
  induction fuel generalizing under memo name with
  | zero =>
    refine retrieve_settles hs fun definition hd hm => ?_
    exact absurd rfl (fuel_pos hu hk hf (stack.condition_mem_keys hd) (hun hm))
  | succ fuel ih =>
    refine retrieve_settles hs fun definition hd hm => tracked_settles hd (fun mid other hmid => ?_) hs hm
    have hname := stack.condition_mem_keys hd
    refine ih (List.nodup_cons.2 ⟨hun hm, hu⟩) (List.cons_subset.2 ⟨hname, hk⟩) ?_ hmid ?_
    · simp only [List.length_cons]
      omega
    · intro hm' h
      rw [(hmid.inProgress other).2 h] at hm'
      cases hm'

end Evaluation

end Orchestration
