import Orchestration.Proofs.Migration.Outcome

/-!
Tables that agree with the outcomes: the properties that are remembered have theirs, and what is left
of a property is what the remembered ones leave of it. Main statement: run on what such tables hold,
the rules of a property come to its outcome.
-/

namespace Orchestration.Migration

open Relation (TransGen)

/-- No two properties lay claim to one part of a third one, and no properties take parts out of each
other in a ring. -/
structure Untangled (m : Migration) : Prop where
  apart : ∀ s ∈ m.rules, ∀ path ∈ s.takenPath?, ∀ root, path.head? = some root →
    m.Moves s.property root → ∀ r ∈ m.rules, r.property ≠ s.property → r.property ≠ root →
    ∀ read ∈ r.readPath?, apart path read
  acyclic : ∀ key, ¬TransGen m.Moves key key

variable {m : Migration} {p : Properties} {tables : Tables} {key : String}

theorem cutAt_of_head {path : List String} (h : path.head? ≠ some key) (v : Option Value) :
    cutAt key v path = v := by
  cases path with
  | nil => rfl
  | cons first rest =>
    have hne : first ≠ key := by simpa using h
    simp [cutAt, hne]

theorem foldl_cutAt_of_head {taken : List (List String)} (h : ∀ path ∈ taken, path.head? ≠ some key)
    (v : Option Value) : taken.foldl (cutAt key) v = v := by
  induction taken with
  | nil => rfl
  | cons path taken ih =>
    rw [List.foldl_cons, cutAt_of_head (h path (by simp)), ih fun path hp => h path (by simp [hp])]

theorem foldl_cutAt_filter (taken : List (List String)) (root : String) (v : Option Value) :
    (taken.filter (·.head? = some root)).foldl (cutAt root) v = taken.foldl (cutAt root) v := by
  rw [List.foldl_filter]
  congr 1
  funext v path
  cases path with
  | nil => simp [cutAt]
  | cons first rest => by_cases hr : first = root <;> simp [hr, cutAt]

section

variable {α β : Type} {f : β → α → β} {xs ys : List α}

theorem foldl_comm_one {x : α} (h : ∀ y ∈ ys, ∀ b, f (f b x) y = f (f b y) x) (b : β) :
    ys.foldl f (f b x) = f (ys.foldl f b) x := by
  induction ys generalizing b with
  | nil => rfl
  | cons y ys ih =>
    rw [List.foldl_cons, List.foldl_cons, h y (by simp), ih fun y hy => h y (by simp [hy])]

theorem foldl_comm (h : ∀ x ∈ xs, ∀ y ∈ ys, ∀ b, f (f b x) y = f (f b y) x) (b : β) :
    ys.foldl f (xs.foldl f b) = xs.foldl f (ys.foldl f b) := by
  induction xs generalizing b with
  | nil => rfl
  | cons x xs ih =>
    rw [List.foldl_cons, List.foldl_cons, ih fun x hx => h x (by simp [hx]),
      foldl_comm_one (h x (by simp))]

/-- Steps that do nothing can be left out, and the order of the others does not matter if they
commute. -/
theorem foldl_eq_of_mem_iff (q : α → Bool) (hx : xs.Nodup) (hy : ys.Nodup)
    (hm : ∀ x, q x → (x ∈ xs ↔ x ∈ ys)) (hq : ∀ x, q x = false → ∀ b, f b x = b)
    (hc : ∀ x y, q x → q y → x ≠ y → ∀ b, f (f b x) y = f (f b y) x) (b : β) :
    xs.foldl f b = ys.foldl f b := by
  have hf : ∀ zs : List α, zs.foldl f b = (zs.filter q).foldl f b := by
    intro zs
    rw [List.foldl_filter]
    refine List.foldl_ext _ _ b fun b z _ => ?_
    cases hz : q z with
    | true => rfl
    | false => exact hq z hz b
  have hp : (xs.filter q).Perm (ys.filter q) := by
    refine (List.perm_ext_iff_of_nodup (hx.filter q) (hy.filter q)).2 fun x => ?_
    simp only [List.mem_filter]
    exact and_congr_left (hm x)
  rw [hf xs, hf ys]
  refine hp.foldl_eq' (fun x hx y hy b => ?_) b
  by_cases he : x = y
  · rw [he]
  · exact hc x y (List.mem_filter.1 hx).2 (List.mem_filter.1 hy).2 he b

end

def lostBy (m : Migration) (p : Properties) (keys : List String) : List (List String) :=
  keys.flatMap fun key => (m.outcome p key).lost

structure Coherent (m : Migration) (p : Properties) (tables : Tables) : Prop where
  nodup : tables.cache.keys.Nodup
  cached : ∀ {key v}, tables.cache.get? key = some v →
    (m.outcome p key).value = .ok v ∧ (m.outcome p key).taken.isSome
  loaded : loaded p tables = cutAll (lostBy m p tables.cache.keys) p.value

theorem Coherent.congr {after : Tables} (h : Coherent m p tables) (hc : after.cache = tables.cache)
    (hl : Migration.loaded p after = Migration.loaded p tables) : Coherent m p after := by
  constructor
  · rw [hc]
    exact h.nodup
  · rw [hc]
    exact h.cached
  · rw [hc, hl]
    exact h.loaded

theorem coherent_empty : Coherent m p .empty := by
  refine ⟨List.nodup_nil, by simp [Tables.empty], ?_⟩
  simp [Tables.empty, Fields.keys, lostBy]
  rfl

namespace Untangled

variable {other : String} {path : List String}

theorem mem_lost (hm : m.Untangled) (h : path ∈ (m.outcome p key).lost) :
    ∃ root, path.head? = some root ∧ m.Moves key root ∧
      ∃ r ∈ m.rulesFor key, r.takenPath? = some path := by
  rw [outcome_eq hm.acyclic] at h
  exact Migration.mem_lost h

theorem clear_of_mem_lost (hm : m.Untangled) (h : path ∈ (m.outcome p other).lost)
    (ho : other ≠ key) (hk : path.head? ≠ some key) :
    ∀ r ∈ m.rulesFor key, r.Clear path := by
  obtain ⟨root, hroot, hmoves, s, hs, ht⟩ := hm.mem_lost h
  obtain ⟨hs, hsp⟩ := mem_rulesFor.1 hs
  intro r hr
  obtain ⟨hr, hrp⟩ := mem_rulesFor.1 hr
  have hne : key ≠ root := by
    rintro rfl
    exact hk hroot
  refine ⟨by rwa [hrp], hm.apart s hs path ht root hroot (hsp ▸ hmoves) r hr ?_ (hrp ▸ hne)⟩
  rw [hrp, hsp]
  exact ho.symm

theorem foldl_lost_comm (hm : m.Untangled) {first second : String} (hne : first ≠ second)
    (v : Option Value) :
    (m.outcome p second).lost.foldl (cutAt key) ((m.outcome p first).lost.foldl (cutAt key) v) =
      (m.outcome p first).lost.foldl (cutAt key) ((m.outcome p second).lost.foldl (cutAt key) v) := by
  refine foldl_comm (fun x hx y hy v => ?_) v
  by_cases hxk : x.head? = some key
  · by_cases hyk : y.head? = some key
    · obtain ⟨root, hroot, hmoves, r, hr, ht⟩ := hm.mem_lost hy
      rw [hyk] at hroot
      cases hroot
      have hhead : x.head? ≠ some second := by
        rw [hxk]
        rintro ⟨⟩
        exact ne_of_moves hmoves rfl
      have hclear := hm.clear_of_mem_lost hx hne hhead r hr
      exact cutAt_comm (hclear.read y (Rule.readPath?_of_takenPath? ht)) v
    · rw [cutAt_of_head hyk, cutAt_of_head hyk]
  · rw [cutAt_of_head hxk, cutAt_of_head hxk]

theorem foldl_lost_of_not_moves (hm : m.Untangled) (h : ¬m.Moves other key) (v : Option Value) :
    (m.outcome p other).lost.foldl (cutAt key) v = v := by
  refine foldl_cutAt_of_head (fun path hp hk => ?_) v
  obtain ⟨root, hroot, hmoves, -⟩ := hm.mem_lost hp
  rw [hk] at hroot
  cases hroot
  exact h hmoves

theorem foldl_cache (hm : m.Untangled) (hs : Coherent m p tables)
    (hc : ∀ other, m.Moves other key → (m.outcome p other).taken.isSome →
      other ∈ tables.cache.keys) (v : Option Value) :
    (lostBy m p tables.cache.keys).foldl (cutAt key) v =
      (m.takenFrom (m.outcome p) key).foldl (cutAt key) v := by
  unfold takenFrom lostBy
  rw [foldl_cutAt_filter, List.foldl_flatMap, List.foldl_flatMap]
  let q (other : String) : Bool :=
    decide (other ∈ m.movedFrom key) && (m.outcome p other).taken.isSome
  refine foldl_eq_of_mem_iff q hs.nodup (List.nodup_dedup _) (fun other hq => ?_)
    (fun other hq v => ?_) (fun first second _ _ hne v => hm.foldl_lost_comm hne v) v
  · simp only [q, Bool.and_eq_true, decide_eq_true_eq] at hq
    simp [hc other hq.1 hq.2, hq.1]
  · by_cases hmoves : m.Moves other key
    · have hn : (m.outcome p other).taken = none := by
        simpa [q, show other ∈ m.movedFrom key from hmoves] using hq
      simp [Outcome.lost, hn]
    · exact hm.foldl_lost_of_not_moves hmoves v

theorem loaded_eq (hm : m.Untangled) (hs : Coherent m p tables)
    (hc : ∀ other, m.Moves other key → (m.outcome p other).taken.isSome →
      other ∈ tables.cache.keys) :
    loaded p tables =
      cutAll ((lostBy m p tables.cache.keys).filter (·.head? ≠ some key))
        (cutAll (m.takenFrom (m.outcome p) key) p.value) := by
  rw [hs.loaded]
  funext root
  simp only [cutAll, Functor.map_map]
  congr 1
  funext v
  by_cases hk : root = key
  · subst hk
    rw [hm.foldl_cache hs hc]
    exact (foldl_cutAt_of_head (by simp) _).symm
  · have ht : (m.takenFrom (m.outcome p) key).foldl (cutAt root) v = v := by
      refine foldl_cutAt_of_head (fun path hp hr => hk ?_) v
      have hk := (List.mem_filter.1 hp).2
      simpa [hr] using hk
    have hf : ((lostBy m p tables.cache.keys).filter (·.head? ≠ some key)).filter
        (·.head? = some root) = (lostBy m p tables.cache.keys).filter (·.head? = some root) := by
      rw [List.filter_filter]
      refine List.filter_congr fun path _ => ?_
      by_cases hr : path.head? = some root <;> simp [hr, hk]
    rw [ht, ← foldl_cutAt_filter, ← hf, foldl_cutAt_filter]

theorem carryOut_eq (hm : m.Untangled) (hs : Coherent m p tables)
    (hc : ∀ other, m.Moves other key → (m.outcome p other).taken.isSome →
      other ∈ tables.cache.keys) (hk : key ∉ tables.cache.keys) :
    m.carryOut (loaded p tables) key =
      (fun (last, taken) => (((lostBy m p tables.cache.keys).filter
        (·.head? ≠ some key)).foldl remove last, taken)) <$>
        m.carryOut (cutAll (m.takenFrom (m.outcome p) key) p.value) key := by
  have hclear : ∀ path ∈ (lostBy m p tables.cache.keys).filter (·.head? ≠ some key),
      ∀ r ∈ m.rulesFor key, r.Clear path := by
    intro path hp
    obtain ⟨hl, hh⟩ := List.mem_filter.1 hp
    obtain ⟨other, ho, hl⟩ := List.mem_flatMap.1 hl
    exact hm.clear_of_mem_lost hl (fun he => hk (he ▸ ho)) (of_decide_eq_true hh)
  unfold carryOut
  rw [hm.loaded_eq hs hc, gather_cutAll]
  cases gather (cutAll (m.takenFrom (m.outcome p) key) p.value) (m.inputs key) with
  | error e => rfl
  | ok data =>
    change ((Rule.applyAll _ _ (List.foldl remove data _)).run []).1 = _
    rw [Rule.applyAll_removeAll hclear, Run.map_run]
    rfl

end Untangled

end Orchestration.Migration
