import Mathlib.Data.List.Pairwise
import Orchestration.Proofs.Migration.Spot
import Orchestration.Proofs.Migration.Taken

namespace Orchestration.Migration

inductive Spot
  | path (path : List String)
  | field (holder : Breadcrumb) (name : String)

namespace Spot

def root : Spot → String
  | path p => p.headD ""
  | field (.key root :: _) _ => root
  | field _ name => name

/-- What is at a spot; `none` if there is no map around it. -/
def probe (values : String → Option Value) : Spot → Option (Option Value)
  | path [] => some none
  | path (root :: rest) => some ((values root).bind (·.select? (rest.map .text)))
  | field [] name => some (values name)
  | field (.key root :: rest) name => (values root).bind (hole · rest name)
  | field (.index _ :: _) _ => none

def seen (values : String → Option Value) (spot : Spot) : Option Value := (spot.probe values).join

theorem probe_of_seen {values : String → Option Value} {spot : Spot} {v : Value}
    (h : spot.seen values = some v) : spot.probe values = some (some v) := by
  unfold seen at h
  cases hp : spot.probe values with
  | none => simp [hp] at h
  | some o => simpa [hp] using h

theorem probe_congr {values values' : String → Option Value} {spot : Spot}
    (h : values spot.root = values' spot.root) : spot.probe values = spot.probe values' := by
  cases spot with
  | path path =>
    cases path with
    | nil => rfl
    | cons root rest =>
      have h' : values root = values' root := h
      simp only [probe, h']
  | field holder name =>
    cases holder with
    | nil =>
      have h' : values name = values' name := h
      simp only [probe, h']
    | cons step rest =>
      cases step with
      | index i => rfl
      | key root =>
        have h' : values root = values' root := h
        simp only [probe, h']

theorem probe_path (data : Fields Value) (path : List String) :
    (Spot.path path).probe data.get? = some (lookup data path) := by
  cases path <;> rfl

theorem probe_field (data : Fields Value) (holder : Breadcrumb) (name : String) :
    (field holder name).probe data.get? = hole (.map data) holder name := by
  cases holder with
  | nil => rfl
  | cons step rest => cases step <;> rfl

end Spot

inductive Place
  | path (path : List String)
  | keys (keys : List String)

namespace Place

def apart : Place → Place → Bool
  | path p, path q => Migration.apart p q
  | path p, keys t => parted p t
  | keys t, path p => parted p t
  | keys t, keys u => keysApart t u

theorem apart_comm (a b : Place) : a.apart b = b.apart a := by
  cases a <;> cases b <;> simp [apart, Migration.apart_comm, keysApart_comm]

end Place

inductive Spot.In : Spot → Place → Prop
  | path (path : List String) : In (.path path) (.path path)
  | field {way : List String} {x : Breadcrumb} (name : String) :
    Leads way x → In (.field x name) (.keys (way ++ [name]))

def Source.place? (way : List String) : Source → Option Place
  | given _ => none
  | sibling name _ => some (.keys (way ++ [name]))
  | top path _ => some (.path path)

def Source.written (field : String) : Source → List String
  | sibling name _ => [field, name]
  | _ => [field]

namespace Rule

variable (r : Rule)

def sourcePlace? : Option Place :=
  match r.action with
  | .add source | .replace source => source.place? r.way
  | _ => none

def targetPlace : Place := .keys (r.way ++ [r.field])

def places : List Place := r.targetPlace :: r.sourcePlace?.toList

def IsMove : Prop :=
  match r.action with
  | .replace (.sibling _ none) | .replace (.top _ none) => True
  | _ => False

inductive From (r : Rule) : Spot → Prop
  | sibling {name x} : r.action = .replace (.sibling name none) → Leads r.way x →
    From r (.field x name)
  | top {path} : r.action = .replace (.top path none) → From r (.path path)

inductive Moves (r : Rule) : Spot → Spot → Prop
  | sibling {name x} : r.action = .replace (.sibling name none) → Leads r.way x →
    Moves r (.field x name) (.field x r.field)
  | top {path x} : r.action = .replace (.top path none) → Leads r.way x →
    Moves r (.path path) (.field x r.field)

/-- Two rules that do not meet anywhere. -/
def Separate (r s : Rule) : Prop := ∀ a ∈ r.places, ∀ b ∈ s.places, a.apart b

/-- A rule does not write where it reads. -/
def Straight : Prop := ∀ a ∈ r.sourcePlace?, a.apart r.targetPlace

instance : DecidableRel Separate := fun r s =>
  inferInstanceAs (Decidable (∀ a ∈ r.places, ∀ b ∈ s.places, a.apart b))

instance : DecidablePred Straight := fun r =>
  inferInstanceAs (Decidable (∀ a ∈ r.sourcePlace?, a.apart r.targetPlace))

variable {r}

theorem Separate.symm {s : Rule} (h : r.Separate s) : s.Separate r := by
  intro a ha b hb
  rw [Place.apart_comm]
  exact h b hb a ha

instance : Std.Symm Separate := ⟨fun _ _ => Separate.symm⟩

theorem Straight.ne_field (h : r.Straight) {name : String} {pick : Option (List String)}
    (hr : r.action = .replace (.sibling name pick)) : name ≠ r.field := by
  rintro rfl
  have := h (.keys (r.way ++ [r.field])) (by simp [sourcePlace?, hr, Source.place?])
  rw [targetPlace, Place.apart, not_keysApart_self] at this
  cases this

theorem From.exists_place {a : Spot} (h : r.From a) : ∃ place ∈ r.sourcePlace?, a.In place := by
  cases h with
  | @sibling name x hr hl =>
    exact ⟨.keys (r.way ++ [name]), by simp [sourcePlace?, hr, Source.place?], .field name hl⟩
  | @top path hr => exact ⟨.path path, by simp [sourcePlace?, hr, Source.place?], .path path⟩

theorem Moves.in_target {a b : Spot} (h : r.Moves a b) : b.In r.targetPlace := by
  cases h with
  | sibling hr hl => exact .field r.field hl
  | top hr hl => exact .field r.field hl

theorem replaceIn_writes (source : Source) (data : Fields Value) :
    Writes (r.replaceIn source data) (source.written r.field) := by
  intro fields fields' h name hn
  obtain ⟨-, rfl⟩ | ⟨v, -, -, rfl⟩ := replaceIn_ok h
  · rfl
  · cases source with
    | sibling other pick =>
      simp only [Source.written, List.mem_cons, List.not_mem_nil, or_false, not_or] at hn
      rw [Source.leave, Fields.get?_erase_of_ne _ (Ne.symm hn.2), Fields.get?_insert,
        if_neg (Ne.symm hn.1)]
    | _ =>
      simp only [Source.written, List.mem_cons, List.not_mem_nil, or_false] at hn
      change Fields.get? (Fields.insert fields r.field v) name = _
      rw [Fields.get?_insert, if_neg (Ne.symm hn)]

end Rule

section

variable {data changed : Fields Value} {spot : Spot} {place : Place} {way : List String}

theorem probe_edit {change : Fields Value → Result (Fields Value)} {written : List String}
    (hw : Writes change written) (hne : written ≠ []) (h : edit change way data = .ok changed)
    (hs : spot.In place)
    (ha : ∀ field ∈ written, (Place.keys (way ++ [field])).apart place) :
    spot.probe changed.get? = spot.probe data.get? := by
  cases hs with
  | path path =>
    have hsel := select?_edit hw hne h ha
    simp only [Spot.probe_path, lookup, hsel]
  | field name hl => rw [Spot.probe_field, Spot.probe_field, hole_edit hw hne h hl ha]

theorem probe_remove {path : List String} (hs : spot.In place) (ha : (Place.path path).apart place) :
    spot.probe (remove data path).get? = spot.probe data.get? := by
  cases hs with
  | path q => rw [Spot.probe_path, Spot.probe_path, lookup_remove ha]
  | field name hl => rw [Spot.probe_field, Spot.probe_field, hole_remove hl ha]

end

namespace Rule

variable {r : Rule} {clientResolve : Bool} {before after : List Query}
  {data changed : Fields Value} {spot : Spot} {place : Place}

theorem IsMove.exists_source (h : r.IsMove) : ∃ source, r.action = .replace source ∧
    ((∃ name, source = .sibling name none) ∨ ∃ path, source = .top path none) := by
  unfold IsMove at h
  split at h
  · next name hr => exact ⟨_, hr, .inl ⟨name, rfl⟩⟩
  · next path hr => exact ⟨_, hr, .inr ⟨path, rfl⟩⟩
  · cases h

theorem apply_replace {source : Source} (hr : r.action = .replace source)
    (h : (r.apply clientResolve data).run before = (.ok changed, after)) :
    ∃ mid, edit (r.replaceIn source data) r.way data = .ok mid ∧
      changed = r.vacate source data mid := by
  rw [apply, hr] at h
  obtain ⟨mid, _, he, hc⟩ := Run.exists_of_bind h
  cases hc
  exact ⟨mid, congrArg Prod.fst he, rfl⟩

theorem written_ne_nil (source : Source) : source.written r.field ≠ [] := by
  cases source <;> simp [Source.written]

theorem mem_places_of_written {source : Source} (hr : r.action = .replace source) {field : String}
    (h : field ∈ source.written r.field) : Place.keys (r.way ++ [field]) ∈ r.places := by
  cases source with
  | sibling name pick =>
    simp only [Source.written, List.mem_cons, List.not_mem_nil, or_false] at h
    obtain rfl | rfl := h <;> simp [places, targetPlace, sourcePlace?, hr, Source.place?]
  | _ =>
    simp only [Source.written, List.mem_cons, List.not_mem_nil, or_false] at h
    simp [places, targetPlace, h]

theorem apply_probe (hm : r.IsMove)
    (h : (r.apply clientResolve data).run before = (.ok changed, after)) (hs : spot.In place)
    (ha : ∀ a ∈ r.places, a.apart place) : spot.probe changed.get? = spot.probe data.get? := by
  obtain ⟨source, hr, -⟩ := hm.exists_source
  obtain ⟨mid, he, rfl⟩ := apply_replace hr h
  have hmid : spot.probe mid.get? = spot.probe data.get? :=
    probe_edit (replaceIn_writes source data) (written_ne_nil source) he hs
      fun field hf => ha _ (mem_places_of_written hr hf)
  rw [← hmid]
  cases source with
  | top path pick =>
    rw [vacate]
    split
    · exact probe_remove hs (ha _ (by simp [places, sourcePlace?, hr, Source.place?]))
    · rfl
  | _ => rfl

theorem value?_sibling {name : String} {holder : Fields Value} {v : Value}
    (hv : holder.get? name = some v) (hn : v.isNull = false) :
    (Source.sibling name none).value? data holder = some v := by
  simp [Source.value?, Source.picked, hv, hn]

theorem value?_top {path : List String} {holder : Fields Value} {v : Value}
    (hv : lookup data path = some v) (hn : v.isNull = false) :
    (Source.top path none).value? data holder = some v := by
  simp [Source.value?, Source.picked, hv, hn]

theorem replaceIn_get? {source : Source} {holder holder' : Fields Value} {v : Value}
    (h : r.replaceIn source data holder = .ok holder') (hv : source.value? data holder = some v)
    (hne : ∀ name pick, source = .sibling name pick → name ≠ r.field) :
    holder'.get? r.field = some v := by
  obtain ⟨hn, -⟩ | ⟨w, hw, -, rfl⟩ := replaceIn_ok h
  · rw [hn] at hv
    cases hv
  · rw [hw] at hv
    cases hv
    cases source with
    | sibling name pick =>
      rw [Source.leave, Fields.get?_erase_of_ne _ (hne name pick rfl), Fields.get?_insert,
        if_pos rfl]
    | _ =>
      change Fields.get? (Fields.insert holder r.field v) r.field = _
      rw [Fields.get?_insert, if_pos rfl]

theorem apply_sibling {name : String} {x : Breadcrumb} {v : Value}
    (hr : r.action = .replace (.sibling name none)) (hst : r.Straight) (hl : Leads r.way x)
    (h : (r.apply clientResolve data).run before = (.ok changed, after))
    (hv : (Spot.field x name).seen data.get? = some v) (hn : v.isNull = false) :
    (Spot.field x r.field).seen changed.get? = some v := by
  obtain ⟨mid, he, hmid⟩ := apply_replace hr h
  have ho := Spot.probe_of_seen hv
  rw [Spot.probe_field] at ho
  obtain ⟨holder, holder', hc, hd, hd'⟩ := hole_edit_self he hl (Option.isSome_of_eq_some ho)
  have hget : holder.get? name = some v := Option.some.inj ((hd name).symm.trans ho)
  have hfield := replaceIn_get? hc (value?_sibling hget hn) (by
    rintro _ _ ⟨⟩
    exact hst.ne_field hr)
  change changed = mid at hmid
  rw [Spot.seen, Spot.probe_field, hmid, hd', hfield]
  rfl

theorem apply_top {path : List String} {v : Value}
    (hr : r.action = .replace (.top path none)) (hst : r.Straight)
    (h : (r.apply clientResolve data).run before = (.ok changed, after))
    (hv : (Spot.path path).seen data.get? = some v) (hn : v.isNull = false) :
    (∃ x, Leads r.way x ∧ (Spot.field x r.field).seen changed.get? = some v) ∨
      (Spot.path path).seen changed.get? = some v ∧
        ∀ x, Leads r.way x → (Spot.field x r.field).probe data.get? = none := by
  obtain ⟨mid, he, rfl⟩ := apply_replace hr h
  have hparted : (Place.path path).apart r.targetPlace :=
    hst _ (by simp [sourcePlace?, hr, Source.place?])
  have hlookup : lookup data path = some v := by
    rw [Spot.seen, Spot.probe_path] at hv
    exact hv
  -- either there is a map to put the value in, or the way leads to none
  by_cases hx : ∃ x, Leads r.way x ∧ ((Spot.field x r.field).probe data.get?).isSome
  · obtain ⟨x, hl, ho⟩ := hx
    rw [Spot.probe_field] at ho
    obtain ⟨holder, holder', hc, -, hd'⟩ := hole_edit_self he hl ho
    have hfield := replaceIn_get? hc (value?_top hlookup hn) (by simp)
    have hmid : (Spot.field x r.field).seen mid.get? = some v := by
      rw [Spot.seen, Spot.probe_field, hd', hfield]
      rfl
    refine .inl ⟨x, hl, ?_⟩
    rw [vacate]
    split
    · rw [Spot.seen, probe_remove (.field r.field hl) hparted]
      exact hmid
    · exact hmid
  · have hnone : ∀ x, Leads r.way x → (Spot.field x r.field).probe data.get? = none :=
      fun x hl => Option.not_isSome_iff_eq_none.1 fun ho => hx ⟨x, hl, ho⟩
    refine .inr ⟨?_, hnone⟩
    have hholders : holders r.way data = [] :=
      holders_eq_nil fun x hl => (Spot.probe_field ..).symm.trans (hnone x hl)
    have hmid : (Spot.path path).probe mid.get? = (Spot.path path).probe data.get? :=
      probe_edit (replaceIn_writes _ data) (written_ne_nil _) he (.path path)
        fun field hf => by
          simp only [Source.written, List.mem_singleton] at hf
          rw [Place.apart_comm, hf]
          exact hparted
    simp only [vacate, hholders, List.any_nil, Bool.false_eq_true, ↓reduceIte]
    rw [Spot.seen, hmid]
    exact hv

/-- A rule moves a value from its source, or leaves it there for want of a map to put it in. -/
theorem apply_from {a : Spot} {v : Value} (ha : r.From a) (hst : r.Straight)
    (h : (r.apply clientResolve data).run before = (.ok changed, after))
    (hv : a.seen data.get? = some v) (hn : v.isNull = false) :
    (∃ b, r.Moves a b ∧ b.seen changed.get? = some v) ∨
      a.seen changed.get? = some v ∧
        ∀ x, Leads r.way x → (Spot.field x r.field).probe data.get? = none := by
  cases ha with
  | sibling hr hl => exact .inl ⟨_, .sibling hr hl, apply_sibling hr hst hl h hv hn⟩
  | top hr =>
    obtain ⟨x, hl, hx⟩ | hkept := apply_top hr hst h hv hn
    · exact .inl ⟨_, .top hr hl, hx⟩
    · exact .inr hkept

structure Orderly (rules : List Rule) : Prop where
  moves : ∀ r ∈ rules, r.IsMove
  straight : ∀ r ∈ rules, r.Straight
  separate : rules.Pairwise Separate

theorem Orderly.of_cons {rules : List Rule} (h : Orderly (r :: rules)) : Orderly rules :=
  ⟨fun s hs => h.moves s (by simp [hs]), fun s hs => h.straight s (by simp [hs]),
    h.separate.of_cons⟩

theorem Orderly.separate_of_ne {rules : List Rule} (h : Orderly rules) {s : Rule} (hr : r ∈ rules)
    (hs : s ∈ rules) (hne : r ≠ s) : r.Separate s :=
  h.separate.forall hr hs hne

theorem applyAll_probe {rules : List Rule} {last : Fields Value} {taken : List (List String)}
    (hm : ∀ r ∈ rules, r.IsMove)
    (h : (applyAll clientResolve rules data).run before = (.ok (last, taken), after))
    (hs : spot.In place) (ha : ∀ r ∈ rules, ∀ a ∈ r.places, a.apart place) :
    spot.probe last.get? = spot.probe data.get? := by
  induction rules generalizing data before taken with
  | nil =>
    cases h
    rfl
  | cons r rules ih =>
    obtain ⟨changed, mid, hr, h⟩ := Run.exists_of_bind h
    obtain ⟨⟨last, rest⟩, mid', hrest, hlast⟩ := Run.exists_of_bind h
    cases hlast
    rw [ih (fun s hs => hm s (by simp [hs])) hrest fun s hs => ha s (by simp [hs])]
    exact apply_probe (hm r (by simp)) hr hs (ha r (by simp))

theorem applyAll_from {rules : List Rule} {last : Fields Value} {taken : List (List String)}
    {a : Spot} {v : Value} (ho : Orderly rules) (hr : r ∈ rules) (ha : r.From a)
    (h : (applyAll clientResolve rules data).run before = (.ok (last, taken), after))
    (hv : a.seen data.get? = some v) (hn : v.isNull = false) :
    (∃ b, r.Moves a b ∧ b.seen last.get? = some v) ∨
      a.seen last.get? = some v ∧
        ∀ x, Leads r.way x → (Spot.field x r.field).probe data.get? = none := by
  induction rules generalizing data before taken with
  | nil => cases hr
  | cons s rules ih =>
    obtain ⟨changed, mid, hs, h⟩ := Run.exists_of_bind h
    obtain ⟨⟨last, rest⟩, mid', hrest, hlast⟩ := Run.exists_of_bind h
    cases hlast
    obtain ⟨place, hplace, hin⟩ := ha.exists_place
    have hplace : place ∈ r.places := List.mem_cons_of_mem _ (Option.mem_toList.2 hplace)
    have hsep := (List.pairwise_cons.1 ho.separate).1
    obtain rfl | hr := List.mem_cons.1 hr
    · -- this rule moves the value, and the rules after it are apart from where it goes
      have hlater : ∀ {b : Spot} {place : Place}, b.In place → place ∈ r.places →
          b.probe last.get? = b.probe changed.get? := fun hb hp =>
        applyAll_probe ho.of_cons.moves hrest hb fun s hs b hmem =>
          (hsep s hs).symm b hmem _ hp
      obtain ⟨b, hb, hbv⟩ | ⟨hav, hnone⟩ := apply_from ha (ho.straight r (by simp)) hs hv hn
      · refine .inl ⟨b, hb, ?_⟩
        rw [Spot.seen, hlater hb.in_target (by simp [places])]
        exact hbv
      · refine .inr ⟨?_, hnone⟩
        rw [Spot.seen, hlater hin hplace]
        exact hav
    · -- the first rule is apart from this one, so the value is still there
      have hfirst : ∀ {b : Spot} {place : Place}, b.In place → place ∈ r.places →
          b.probe changed.get? = b.probe data.get? := fun hb hp =>
        apply_probe (ho.moves s (by simp)) hs hb fun c hc => hsep r hr c hc _ hp
      have hv' : a.seen changed.get? = some v := by
        rw [Spot.seen, hfirst hin hplace]
        exact hv
      obtain hmoved | ⟨hav, hnone⟩ := ih ho.of_cons hr hrest hv'
      · exact .inl hmoved
      · refine .inr ⟨hav, fun x hl => ?_⟩
        rw [← hfirst (.field r.field hl) (by simp [places, targetPlace])]
        exact hnone x hl

theorem replaceIn_error {source : Source} {holder : Fields Value} {e : Error}
    (h : r.replaceIn source data holder = .error e) :
    ∃ texts, e = .bare (.propertyConflict texts) := by
  unfold replaceIn at h
  cases hv : source.value? data holder with
  | none =>
    rw [hv] at h
    cases h
  | some v =>
    rw [hv] at h
    dsimp only at h
    split at h
    · cases h
      exact ⟨_, rfl⟩
    · cases h

end Rule

end Orchestration.Migration
