import Mathlib.Data.List.Forall2
import Orchestration.Fields
import Orchestration.Proofs.Run
import Orchestration.Proofs.Sorting

namespace Orchestration

namespace Fields

variable {α β : Type}

/-- The values under a key, the one that counts first. -/
def under (m : Fields α) (key : String) : List α := (m.filter (·.1 = key)).map Prod.snd

theorem under_cons (e : String × α) (m : Fields α) (key : String) :
    under (e :: m) key = if e.1 = key then e.2 :: m.under key else m.under key := by
  simp only [under, List.filter_cons, decide_eq_true_eq]
  split <;> rfl

theorem get?_eq_head?_under (m : Fields α) (key : String) : m.get? key = (m.under key).head? := by
  induction m with
  | nil => rfl
  | cons e rest ih =>
    rw [get?, under_cons]
    split
    · rfl
    · exact ih

theorem keys_map (f : α → β) (m : Fields α) :
    keys (m.map fun e => (e.1, f e.2)) = m.keys := by
  simp [keys, Function.comp_def]

theorem under_map (f : α → β) (m : Fields α) (key : String) :
    under (m.map fun e => (e.1, f e.2)) key = (m.under key).map f := by
  simp [under, List.filter_map, Function.comp_def]

theorem get?_map (f : α → β) (m : Fields α) (key : String) :
    get? (m.map fun e => (e.1, f e.2)) key = (m.get? key).map f := by
  rw [get?_eq_head?_under, get?_eq_head?_under, under_map, List.head?_map]

theorem filter_eq_map_under (m : Fields α) (key : String) :
    m.filter (·.1 = key) = (m.under key).map (key, ·) := by
  induction m with
  | nil => rfl
  | cons e rest ih =>
    rw [under_cons, List.filter_cons]
    simp only [decide_eq_true_eq]
    split
    · next h => rw [ih, List.map_cons, ← h]
    · exact ih

theorem under_insert (m : Fields α) (key k : String) (v : α) :
    (m.insert key v).under k = if key = k then v :: (m.under k).tail else m.under k := by
  induction m with
  | nil => rw [insert, under_cons]; rfl
  | cons e rest ih =>
    rw [insert]
    split
    · next h =>
      rw [under_cons, under_cons, h]
      split <;> rfl
    · next h =>
      rw [under_cons, under_cons, ih]
      grind

theorem extend_cons (m other : Fields α) (e : String × α) :
    m.extend (e :: other) = (m.insert e.1 e.2).extend other := rfl

theorem under_extend (m other : Fields α) (k : String) : (m.extend other).under k =
    match (other.under k).getLast? with
    | some v => v :: (m.under k).tail
    | none => m.under k := by
  induction other generalizing m with
  | nil => rfl
  | cons e rest ih =>
    rw [extend_cons, ih, under_insert, under_cons]
    by_cases hkey : e.1 = k
    · simp only [hkey, ↓reduceIte, List.getLast?_cons, List.tail_cons]
      cases (under rest k).getLast? <;> rfl
    · simp only [hkey, ↓reduceIte]

theorem insert_of_notMem {m : Fields α} {key : String} (h : key ∉ m.keys) (v : α) :
    m.insert key v = m ++ [(key, v)] := by
  induction m with
  | nil => rfl
  | cons e rest ih =>
    obtain ⟨hne, hrest⟩ := not_or.1 (mt List.mem_cons.2 h)
    rw [insert, if_neg fun he => hne he.symm, ih hrest]
    rfl

theorem extend_of_nodup {m other : Fields α} (h : Fields.keys (m ++ other) |>.Nodup) :
    m.extend other = m ++ other := by
  induction other generalizing m with
  | nil => exact (List.append_nil m).symm
  | cons e rest ih =>
    have hkey : e.1 ∉ m.keys := by
      rw [keys, List.map_append, List.nodup_append] at h
      exact fun hmem => h.2.2 e.1 hmem e.1 (by simp) rfl
    rw [extend_cons, insert_of_notMem hkey, ih] <;> simp_all [keys]

def keyLe (a b : String × α) : Bool := a.1 ≤ b.1

theorem keyLe_total (a b : String × α) : (keyLe a b || keyLe b a) = true := by
  simpa [keyLe] using String.le_total a.1 b.1

theorem keyLe_trans (a b c : String × α) (hab : keyLe a b = true) (hbc : keyLe b c = true) :
    keyLe a c = true :=
  decide_eq_true (String.le_trans (of_decide_eq_true hab) (of_decide_eq_true hbc))

theorem sameRank_keyLe (a b : String × α) : Sorting.sameRank keyLe a b = decide (b.1 = a.1) := by
  rw [Bool.eq_iff_iff, Sorting.sameRank_iff, keyLe, keyLe]
  simp only [decide_eq_true_eq]
  exact ⟨fun h => String.le_antisymm h.2 h.1, fun h => h ▸ ⟨String.le_refl _, String.le_refl _⟩⟩

def mergeSortKeys (m : Fields α) : Fields α := m.mergeSort keyLe

theorem mergeSortKeys_perm (m : Fields α) : m.mergeSortKeys.Perm m := List.mergeSort_perm m keyLe

theorem under_mergeSortKeys (m : Fields α) (key : String) :
    m.mergeSortKeys.under key = m.under key := by
  have hkey (a b : String × α) (ha : decide (a.1 = key) = true) (hb : decide (b.1 = key) = true) :
      keyLe a b = true := by
    simp only [decide_eq_true_eq] at ha hb
    exact decide_eq_true (ha.trans hb.symm ▸ String.le_refl _)
  exact congrArg (List.map Prod.snd) (Sorting.filter_mergeSort keyLe_total keyLe_trans hkey m)

theorem get?_mergeSortKeys (m : Fields α) (key : String) :
    m.mergeSortKeys.get? key = m.get? key := by
  rw [get?_eq_head?_under, get?_eq_head?_under, under_mergeSortKeys]

theorem mergeSortKeys_eq_iff {m m' : Fields α} :
    m.mergeSortKeys = m'.mergeSortKeys ↔ ∀ key, m.under key = m'.under key := by
  constructor
  · intro h key
    rw [← under_mergeSortKeys m, h, under_mergeSortKeys]
  · intro h
    refine Sorting.mergeSort_congr keyLe_total keyLe_trans fun a => ?_
    rw [funext (sameRank_keyLe a), filter_eq_map_under, filter_eq_map_under, h]

theorem under_of_nodup {m : Fields α} (h : m.keys.Nodup) (key : String) :
    m.under key = (m.get? key).toList := by
  induction m with
  | nil => rfl
  | cons e rest ih =>
    obtain ⟨hkey, hrest⟩ := List.nodup_cons.1 h
    rw [under_cons, get?, ih hrest]
    split
    · next he => rw [(get?_eq_none_iff rest key).2 (he ▸ hkey)]; rfl
    · rfl

theorem get?_extend {other : Fields α} (h : other.keys.Nodup) (m : Fields α) (key : String) :
    (m.extend other).get? key = (other.get? key).or (m.get? key) := by
  rw [get?_eq_head?_under, under_extend, under_of_nodup h, get?_eq_head?_under m]
  cases other.get? key <;> rfl

theorem get?_of_mem {m : Fields α} (h : m.keys.Nodup) {key : String} {v : α} (hv : (key, v) ∈ m) :
    m.get? key = some v := by
  have hunder : v ∈ m.under key :=
    List.mem_map_of_mem (List.mem_filter.2 ⟨hv, decide_eq_true rfl⟩)
  rwa [under_of_nodup h, Option.mem_toList] at hunder

theorem get?_of_perm {m m' : Fields α} (h : m.Perm m') (hkeys : m.keys.Nodup) (key : String) :
    m.get? key = m'.get? key := by
  have hunder : (m.under key).Perm (m'.under key) := (h.filter _).map Prod.snd
  rw [under_of_nodup hkeys, under_of_nodup ((h.map Prod.fst).nodup_iff.1 hkeys)] at hunder
  generalize m.get? key = v at hunder
  generalize m'.get? key = v' at hunder
  cases v <;> cases v' <;> simp_all

theorem perm_of_get?_eq {m m' : Fields α} (hkeys : m.keys.Nodup) (hkeys' : m'.keys.Nodup)
    (h : ∀ key, m.get? key = m'.get? key) : m.Perm m' := by
  have hsort : m.mergeSortKeys = m'.mergeSortKeys := mergeSortKeys_eq_iff.2 fun key => by
    rw [under_of_nodup hkeys, under_of_nodup hkeys', h]
  exact m.mergeSortKeys_perm.symm.trans (hsort ▸ m'.mergeSortKeys_perm)

theorem perm_keys_of_rel {m : Fields α} {m' : Fields β} {R : α → β → Prop} (hkeys : m.keys.Nodup)
    (hkeys' : m'.keys.Nodup) (h : ∀ key, Option.Rel R (m.get? key) (m'.get? key)) :
    m.keys.Perm m'.keys := by
  refine (List.perm_ext_iff_of_nodup hkeys hkeys').2 fun key => ?_
  rw [← contains_iff, ← contains_iff, contains, contains]
  have hkey := h key
  generalize m.get? key = found at hkey
  generalize m'.get? key = found' at hkey
  cases hkey <;> rfl

def Keyed (R : String → α → β → Prop) (e : String × α) (e' : String × β) : Prop :=
  e.1 = e'.1 ∧ R e.1 e.2 e'.2

section

variable {R : String → α → β → Prop} {m : Fields α} {m' : Fields β}
  (h : List.Forall₂ (Keyed R) m m')

include h

theorem keys_eq_of_keyed : m.keys = m'.keys := by
  induction h with
  | nil => rfl
  | cons he _ ih => exact congrArg₂ List.cons he.1 ih

theorem rel_get?_of_keyed (key : String) : Option.Rel (R key) (m.get? key) (m'.get? key) := by
  induction h with
  | nil => exact .none
  | @cons e _ _ _ he _ ih =>
    rw [get?, get?, ← he.1]
    split
    case isTrue hkey => exact .some (hkey ▸ he.2)
    case isFalse => exact ih

end

def Entry (R : α → β → Prop) (e : String × α) (e' : String × β) : Prop := e.1 = e'.1 ∧ R e.2 e'.2

section

variable {R : α → β → Prop} {m : Fields α} {m' : Fields β} (h : List.Forall₂ (Entry R) m m')

include h

theorem keys_eq : m.keys = m'.keys := keys_eq_of_keyed (R := fun _ => R) h

theorem rel_get? (key : String) : Option.Rel R (m.get? key) (m'.get? key) :=
  rel_get?_of_keyed (R := fun _ => R) h key

end

theorem keys_of_mapM {α β : Type} {f : String × α → Result (String × β)}
    {m : Fields α} {m' : Fields β} (h : m.mapM f = .ok m')
    (hf : ∀ e e', f e = .ok e' → e'.1 = e.1) : m'.keys = m.keys := by
  have hentries : List.Forall₂ (Entry fun _ _ => True) m m' :=
    (Run.mapM_eq_ok_iff.1 h).imp fun e e' he => ⟨(hf e e' he).symm, trivial⟩
  exact (keys_eq hentries).symm

theorem rel_get?_of_mapM {α β : Type} {f : String × α → Result (String × β)} {R : α → β → Prop}
    {m : Fields α} {m' : Fields β} (h : m.mapM f = .ok m')
    (hf : ∀ name a e, f (name, a) = .ok e → e.1 = name ∧ R a e.2) (name : String) :
    Option.Rel R (m.get? name) (m'.get? name) := by
  have hentries : List.Forall₂ (Entry R) m m' := by
    refine (Run.mapM_eq_ok_iff.1 h).imp fun e e' he => ?_
    obtain ⟨hkey, hr⟩ := hf e.1 e.2 e' he
    exact ⟨hkey.symm, hr⟩
  exact rel_get? hentries name

end Fields

end Orchestration
