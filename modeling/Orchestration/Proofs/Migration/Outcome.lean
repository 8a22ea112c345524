import Mathlib.Data.Finset.Card
import Mathlib.Data.List.Dedup
import Mathlib.Logic.Relation
import Orchestration.Proofs.Migration.Loading

/-!
What reading a property comes to, found without tables: the properties whose rules take parts out of
it come first, then its own rules are run on what they leave. Main statement: where properties do
not take parts out of each other in a ring, this determines an outcome for each of them.
-/

namespace Orchestration.Migration

open Relation (TransGen)

variable (m : Migration) (p : Properties)

def Moves (other key : String) : Prop := other ∈ m.movedFrom key

structure Outcome where
  value : Result (Option Value)
  /-- The paths at which parts of other properties are taken out, once the rules are run. -/
  taken : Option (List (List String))

def Outcome.lost (o : Outcome) : List (List String) := o.taken.getD []

def inputs (key : String) : List String := key :: (m.rulesFor key).filterMap Rule.input?

def reaches (key : String) (path : List String) : Bool :=
  path.head?.any fun root => (m.movedFrom root).contains key

def takenFrom (known : String → Outcome) (key : String) : List (List String) :=
  ((m.movedFrom key).dedup.flatMap fun other => (known other).lost).filter (·.head? = some key)

/-- What the rules of a property make of the properties that they are run on, and where they take
parts out of them. -/
def carryOut (value : String → Result (Option Value)) (key : String) :
    Result (Fields Value × List (List String)) := do
  let data ← gather value (m.inputs key)
  ((Rule.applyAll m.clientResolve (m.rulesFor key) data).run []).1

/-- The outcome of the rules of a property. Without the value of a parameter they are not run. -/
def ruled (value : String → Result (Option Value)) (key : String) : Outcome :=
  match m.carryOut value key with
  | .ok (last, taken) => ⟨.ok (last.get? key), some (taken.filter (m.reaches key))⟩
  | .error (.bare (.parameterMissing _)) => ⟨value key, none⟩
  | .error e => ⟨.error e, none⟩

def settle (known : String → Outcome) (key : String) : Outcome :=
  match (m.movedFrom key).forM fun other => discard (known other).value with
  | .error e => ⟨.error e, none⟩
  | .ok () => m.ruled (cutAll (m.takenFrom known key) p.value) key

def outcomeWith : (fuel : Nat) → String → Outcome
  | 0, _ => ⟨.ok none, none⟩
  | fuel + 1, key => m.settle p (outcomeWith fuel) key

def outcome (key : String) : Outcome := m.outcomeWith p (m.rules.length + 1) key

variable {m p} {key other : String}

theorem mem_rulesFor {r : Rule} : r ∈ m.rulesFor key ↔ r ∈ m.rules ∧ r.property = key := by
  simp [rulesFor]

theorem moves_iff : m.Moves other key ↔
    ∃ r ∈ m.rulesFor other, r.nestedSource? = some key := by
  simp only [Moves, movedFrom, List.mem_map, List.mem_filter, mem_rulesFor, decide_eq_true_eq]
  exact ⟨fun ⟨r, ⟨hr, hs⟩, hp⟩ => ⟨r, ⟨hr, hp⟩, hs⟩, fun ⟨r, ⟨hr, hp⟩, hs⟩ => ⟨r, ⟨hr, hs⟩, hp⟩⟩

theorem ne_of_nestedSource? {r : Rule} (h : r.nestedSource? = some key) : key ≠ r.property := by
  unfold Rule.nestedSource? at h
  split at h
  · split at h
    · cases h
    · next hne =>
      cases h
      exact hne
  · cases h

theorem ne_of_moves (h : m.Moves other key) : other ≠ key := by
  obtain ⟨r, hr, hs⟩ := moves_iff.1 h
  rw [← (mem_rulesFor.1 hr).2]
  exact (ne_of_nestedSource? hs).symm

theorem input?_of_nestedSource? {r : Rule} (h : r.nestedSource? = some key) :
    r.input? = some key := by
  unfold Rule.nestedSource? at h
  unfold Rule.input?
  split at h
  · next root _ _ _ hr =>
    rw [hr]
    split at h
    · cases h
    · simpa using h
  · cases h

theorem mem_inputs_of_moves (h : m.Moves other key) : key ∈ m.inputs other := by
  obtain ⟨r, hr, hs⟩ := moves_iff.1 h
  exact List.mem_cons_of_mem other (List.mem_filterMap.2 ⟨r, hr, input?_of_nestedSource? hs⟩)

theorem forM_congr {α : Type} {as : List α} {f g : α → Result Unit} (h : ∀ a ∈ as, f a = g a) :
    as.forM f = as.forM g := by
  induction as with
  | nil => rfl
  | cons a as ih =>
    change (f a >>= fun _ => as.forM f) = (g a >>= fun _ => as.forM g)
    rw [h a (by simp), ih fun a ha => h a (by simp [ha])]

theorem settle_congr {known known' : String → Outcome}
    (h : ∀ other, m.Moves other key → known other = known' other) :
    m.settle p known key = m.settle p known' key := by
  have hf : ((m.movedFrom key).forM fun other => discard (known other).value) =
      (m.movedFrom key).forM fun other => discard (known' other).value :=
    forM_congr fun other ho => by rw [h other ho]
  have ht : m.takenFrom known key = m.takenFrom known' key := by
    unfold takenFrom
    congr 1
    refine List.flatMap_congr ?_
    intro other ho
    rw [h other (List.mem_dedup.1 ho)]
  simp only [settle, hf, ht]

theorem carryOut_ok {value : String → Result (Option Value)} {last : Fields Value}
    {taken : List (List String)} (h : m.carryOut value key = .ok (last, taken)) :
    last.keys.Nodup ∧ (∀ root ∈ m.inputs key, root ≠ key →
      cutAll taken value root = .ok (last.get? root)) ∧
      ∀ path ∈ taken, ∃ r ∈ m.rulesFor key, r.takenPath? = some path := by
  obtain ⟨data, hg, hrun⟩ := Run.exists_of_bind_ok h
  obtain ⟨hd, hv⟩ := gather_ok hg
  have hk : ∀ r ∈ m.rulesFor key, r.property = key := fun r hr => (mem_rulesFor.1 hr).2
  obtain ⟨hs, ht⟩ := Rule.applyAll_sameBut hk hd (Prod.ext hrun rfl)
  refine ⟨hs.nodup, fun root hr hne => ?_, ht⟩
  rw [hs.get? root hne, get?_removeAll hd, cutAll, hv root hr]
  rfl

theorem fst_carryOut (m : Migration) (value : String → Result (Option Value)) (key : String) :
    Prod.fst <$> m.carryOut value key = gather value (m.inputs key) >>= fun data =>
      ((m.rulesFor key).foldlM (fun data (r : Rule) => r.apply m.clientResolve data) data
        |>.run []).1 := by
  rw [carryOut, map_bind]
  congr 1
  funext data
  rw [Rule.foldlM_apply, Run.map_run]

theorem value_ruled_of_ok {value : String → Result (Option Value)} {last : Fields Value}
    (h : Prod.fst <$> m.carryOut value key = .ok last) :
    (m.ruled value key).value = .ok (last.get? key) := by
  obtain ⟨⟨last, taken⟩, hcarry, rfl⟩ := Run.exists_of_map_ok h
  rw [ruled, hcarry]

theorem value_ruled_of_error {value : String → Result (Option Value)} {e : Error}
    (h : Prod.fst <$> m.carryOut value key = .error e)
    (hmissing : ∀ name, e = .bare (.parameterMissing name) → value key = .error e) :
    (m.ruled value key).value = .error e := by
  rw [ruled, Run.error_of_map h]
  split
  · next heq => cases heq
  · next name heq =>
    cases heq
    exact hmissing name rfl
  · next heq =>
    cases heq
    rfl

theorem mem_lost_ruled {value : String → Result (Option Value)} {path : List String}
    (h : path ∈ (m.ruled value key).lost) :
    ∃ root, path.head? = some root ∧ m.Moves key root ∧
      ∃ r ∈ m.rulesFor key, r.takenPath? = some path := by
  unfold ruled Outcome.lost at h
  split at h
  · next last taken hc =>
    obtain ⟨hp, hr⟩ := List.mem_filter.1 h
    obtain ⟨root, hh, hmoves⟩ := (Option.any_eq_true ..).1 hr
    exact ⟨root, hh, by simpa [Moves] using hmoves, (carryOut_ok hc).2.2 path hp⟩
  · simp at h
  · simp at h

theorem mem_lost {known : String → Outcome} {path : List String}
    (h : path ∈ (m.settle p known key).lost) :
    ∃ root, path.head? = some root ∧ m.Moves key root ∧
      ∃ r ∈ m.rulesFor key, r.takenPath? = some path := by
  unfold settle at h
  split at h
  · simp [Outcome.lost] at h
  · exact mem_lost_ruled h

theorem exists_rank (h : ∀ key, ¬TransGen m.Moves key key) :
    ∃ rank : String → Nat, (∀ key, rank key ≤ m.rules.length) ∧
      ∀ other key, m.Moves other key → rank other < rank key := by
  classical
  let all := (m.rules.map Rule.property).toFinset
  refine ⟨fun key => (all.filter fun other => TransGen m.Moves other key).card, ?_, ?_⟩
  · intro key
    calc _ ≤ all.card := Finset.card_filter_le _ _
      _ ≤ (m.rules.map Rule.property).length := List.toFinset_card_le _
      _ = m.rules.length := List.length_map _
  · intro other key ho
    have hall : other ∈ all := by
      obtain ⟨r, hr, rfl⟩ := List.mem_map.1 ho
      exact List.mem_toFinset.2 (List.mem_map_of_mem (List.mem_filter.1 hr).1)
    refine Finset.card_lt_card (Finset.ssubset_iff_subset_ne.2 ⟨?_, ?_⟩)
    · intro third h3
      simp only [Finset.mem_filter] at h3 ⊢
      exact ⟨h3.1, h3.2.tail ho⟩
    · intro he
      have hmem : other ∈ all.filter fun third => TransGen m.Moves third key := by
        simp [hall, TransGen.single ho]
      rw [← he] at hmem
      exact h other (Finset.mem_filter.1 hmem).2

theorem outcomeWith_eq {rank : String → Nat}
    (hr : ∀ other key, m.Moves other key → rank other < rank key) {fuel fuel' : Nat}
    (h : rank key < fuel) (h' : rank key < fuel') :
    m.outcomeWith p fuel key = m.outcomeWith p fuel' key := by
  induction fuel generalizing fuel' key with
  | zero => omega
  | succ fuel ih =>
    obtain ⟨fuel', rfl⟩ : ∃ n, fuel' = n + 1 := ⟨fuel' - 1, by omega⟩
    refine settle_congr fun other ho => ih ?_ ?_
    · have := hr other key ho
      omega
    · have := hr other key ho
      omega

/-- Where there are no rings, the outcome for a property follows from those of the properties that
take parts out of it. -/
theorem outcome_eq (h : ∀ key, ¬TransGen m.Moves key key) (key : String) :
    m.outcome p key = m.settle p (m.outcome p) key := by
  obtain ⟨rank, hle, hlt⟩ := exists_rank h
  have hk := hle key
  refine settle_congr fun other ho => outcomeWith_eq hlt ?_ ?_
  · have := hlt other key ho
    omega
  · have := hle other
    omega

end Orchestration.Migration
