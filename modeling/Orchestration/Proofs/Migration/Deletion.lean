import Orchestration.Proofs.Migration.Missing
import Orchestration.Proofs.Migration.Promises
import Orchestration.Proofs.Migration.Reach

namespace Orchestration

namespace Value

/-- Wherever a way leads to a map in a value, it leads to one with at least its keys in another. -/
def Within (v' v : Value) : Prop :=
  ∀ way holder', v'.Reaches way holder' →
    ∃ holder, v.Reaches way holder ∧ holder'.keys ⊆ holder.keys

variable {v v' : Value} {fields : Fields Value} {items : List Value} {key : String}

theorem Within.refl (v : Value) : v.Within v := fun _ _ h => ⟨_, h, List.Subset.refl _⟩

theorem Within.insert (h : v'.Within v) (hv : fields.get? key = some v) :
    (map (fields.insert key v')).Within (map fields) := by
  rintro _ _ (_ | ⟨hget, hreach⟩)
  · exact ⟨fields, .here, (Fields.keys_insert_of_get? hv).symm ▸ List.Subset.refl _⟩
  · rw [Fields.get?_insert] at hget
    split at hget
    · next hkey =>
      cases hget
      obtain ⟨holder, hreach, hkeys⟩ := h _ _ hreach
      exact ⟨holder, .field (hkey ▸ hv) hreach, hkeys⟩
    · exact ⟨_, .field hget hreach, List.Subset.refl _⟩

theorem within_erase (h : (map fields).Tidy) (key : String) :
    (map (fields.erase key)).Within (map fields) := by
  rintro _ _ (_ | @⟨_, _, other, _, _, hget, hreach⟩)
  · exact ⟨fields, .here, (fields.keys_erase_sublist key).subset⟩
  · by_cases hkey : key = other
    · rw [← hkey, Fields.get?_erase_self h.nodup] at hget
      cases hget
    · rw [Fields.get?_erase_of_ne fields hkey] at hget
      exact ⟨_, .field hget hreach, List.Subset.refl _⟩

section

variable {R : Fields Value → Fields Value → Prop}

mutual

theorem Revised.within (hR : ∀ holder holder', (map holder).Tidy → R holder holder' →
    (map holder').Within (map holder)) : ∀ {way v v'}, Revised R way v v' → v.Tidy → v'.Within v
  | _, _, _, .here h, hv => hR _ _ hv h
  | _, _, _, .field hget h, hv => (h.within hR (hv.get? hget)).insert hget
  | _, _, _, .missing _, _ => .refl _
  | _, _, _, .scalar, _ => .refl _
  | _, _, _, .list h, hv => by
    rintro way _ (_ | _ | ⟨hmem, hreach⟩)
    obtain ⟨fields, holder, hmem, hreach, hkeys⟩ := h.within hR (fun _ hw => hv.item hw) hmem hreach
    exact ⟨holder, .item hmem hreach, hkeys⟩

theorem RevisedItems.within (hR : ∀ holder holder', (map holder).Tidy → R holder holder' →
    (map holder').Within (map holder)) : ∀ {way items items'}, RevisedItems R way items items' →
    (∀ v ∈ items, v.Tidy) → ∀ {fields' holder' way'}, .map fields' ∈ items' →
      (map fields').Reaches way' holder' → ∃ fields holder, .map fields ∈ items ∧
        (map fields).Reaches way' holder ∧ holder'.keys ⊆ holder.keys
  | _, _, _, .map h hitems, hv, _, _, _, hmem, hreach => by
    obtain heq | hmem := List.mem_cons.1 hmem
    · cases heq
      obtain ⟨holder, hreach, hkeys⟩ := h.within hR (hv _ List.mem_cons_self) _ _ hreach
      exact ⟨_, holder, List.mem_cons_self, hreach, hkeys⟩
    · obtain ⟨fields, holder, hmem, hreach, hkeys⟩ :=
        hitems.within hR (fun w hw => hv w (List.mem_cons_of_mem _ hw)) hmem hreach
      exact ⟨fields, holder, List.mem_cons_of_mem _ hmem, hreach, hkeys⟩
  | _, _, _, .other _ hitems, hv, _, _, _, hmem, hreach => by
    obtain rfl | hmem := List.mem_cons.1 hmem
    · exact ⟨_, _, List.mem_cons_self, hreach, List.Subset.refl _⟩
    · obtain ⟨fields, holder, hmem, hreach, hkeys⟩ :=
        hitems.within hR (fun w hw => hv w (List.mem_cons_of_mem _ hw)) hmem hreach
      exact ⟨fields, holder, List.mem_cons_of_mem _ hmem, hreach, hkeys⟩

end

end

end Value

namespace Migration

variable {m : Migration} {p : Properties} {key : String} {data changed : Fields Value}

theorem Kind.rank_le_delete (kind : Kind) : kind.rank ≤ Kind.delete.rank := by
  cases kind <;> decide

namespace Rule

variable {r : Rule} {done rest : List Rule}

def Gone (r : Rule) (data : Fields Value) : Prop :=
  ∀ holder, (Value.map data).Reaches r.way holder → r.field ∉ holder.keys

theorem Gone.of_within (h : r.Gone data) (hw : (Value.map changed).Within (.map data)) :
    r.Gone changed := by
  intro holder' hreach hmem
  obtain ⟨holder, hreach, hkeys⟩ := hw r.way holder' hreach
  exact h holder hreach (hkeys hmem)

theorem apply_delete (h : r.kind = .delete) (clientResolve : Bool) (data : Fields Value) :
    ∃ changed, Value.Revised (fun holder holder' => holder' = holder.erase r.field) r.way
      (.map data) (.map changed) ∧ r.apply clientResolve data = pure changed := by
  have ha : r.action = .delete := by
    cases ha : r.action with
    | delete => rfl
    | _ => simp [kind, ha, Action.kind] at h
  let change (holder : Fields Value) : Result (Fields Value) := pure (holder.erase r.field)
  have happly : r.apply clientResolve data = liftM (edit change r.way data) := by
    rw [← edit_liftM, apply, ha]
    rfl
  cases hedit : edit change r.way data with
  | ok changed =>
    refine ⟨changed, (edit_revised hedit).imp fun holder holder' _ hchange => ?_, ?_⟩
    · exact (Except.ok.inj hchange).symm
    · rw [happly, hedit]
      rfl
  | error e =>
    obtain ⟨holder, -, he⟩ := edit_error hedit
    cases he

theorem delete_meets (h : r.kind = .delete) (clientResolve : Bool) (hd : (Value.map data).Tidy) :
    Run.Meets (fun _ => True) Spared (fun changed => r.Gone changed ∧
      (Value.map changed).Within (.map data)) (r.apply clientResolve data) := by
  obtain ⟨changed, hrevised, happly⟩ := r.apply_delete h clientResolve data
  rw [happly]
  refine .pure ⟨fun holder' hreach => ?_, hrevised.within ?_ hd⟩
  · obtain ⟨holder, hfrom, rfl⟩ := hrevised.exists_original hreach
    exact (Fields.get?_eq_none_iff _ _).1 (Fields.get?_erase_self (hfrom.tidy hd).nodup r.field)
  · rintro holder _ hholder rfl
    exact Value.within_erase hholder r.field

structure Cleared (done : List Rule) (data : Fields Value) : Prop where
  tidy : (Value.map data).Tidy
  gone : ∀ r ∈ done, r.kind = .delete → r.Gone data

/-- The rules that delete run last, so the others cannot undo what they do. -/
theorem apply_cleared (hr : r.action.Tidy) (hbefore : ∀ s ∈ done, s.runsBefore r)
    (clientResolve : Bool) (hd : Cleared done data) :
    Run.Meets (fun _ => True) Spared (Cleared (done ++ [r])) (r.apply clientResolve data) := by
  have htidy := apply_meets hr clientResolve hd.tidy
  by_cases hdelete : r.kind = .delete
  · refine (htidy.and (delete_meets hdelete clientResolve hd.tidy)).imp ?_
    rintro changed ⟨htidy, hgone, hwithin⟩
    refine ⟨htidy, fun s hs hkind => ?_⟩
    obtain hs | hs := List.mem_append.1 hs
    · exact (hd.gone s hs hkind).of_within hwithin
    · rwa [List.mem_singleton.1 hs]
  · refine htidy.imp fun changed htidy => ⟨htidy, fun s hs hkind => ?_⟩
    obtain hs | hs := List.mem_append.1 hs
    · -- a rule that deletes and was run before would make this one delete as well
      have hrank := hbefore s hs
      rw [runsBefore, hkind, decide_eq_true_eq] at hrank
      exact absurd (Kind.eq_of_rank_eq (le_antisymm (Kind.rank_le_delete _) hrank)) hdelete
    · exact absurd (List.mem_singleton.1 hs ▸ hkind) hdelete

theorem foldlM_apply_cleared (hd : Cleared done data) (hrest : ∀ r ∈ rest, r.action.Tidy)
    (hsorted : (done ++ rest).Pairwise (Rule.runsBefore · ·)) (clientResolve : Bool) :
    Run.Meets (fun _ => True) Spared (Cleared (done ++ rest))
      (rest.foldlM (fun data r => r.apply clientResolve data) data) := by
  induction rest generalizing done data with
  | nil => exact .pure ((List.append_nil done).symm ▸ hd)
  | cons r rest ih =>
    have hbefore : ∀ s ∈ done, s.runsBefore r := fun s hs =>
      (List.pairwise_append.1 hsorted).2.2 s hs r List.mem_cons_self
    rw [List.append_cons] at hsorted ⊢
    rw [List.foldlM_cons]
    have hfirst := apply_cleared (hrest r List.mem_cons_self) hbefore clientResolve hd
    refine hfirst.bind fun _ hnext => ?_
    exact ih hnext (fun s hs => hrest s (List.mem_cons_of_mem _ hs)) hsorted

end Rule

theorem exists_gone {r : Rule} {v : Value} (h : r.Gone data)
    (hget : data.get? r.property = some v) :
    ∃ way, canonical r.path = r.property :: way ++ [r.field] ∧
      ∀ holder, v.Reaches way holder → r.field ∉ holder.keys := by
  have hpath := r.way_append_field
  cases hway : r.way with
  | nil =>
    have hkey : r.property ∈ data.keys :=
      (Fields.contains_iff _ _).1 (by simp [Fields.contains, hget])
    rw [← r.field_eq_property hway] at hkey
    exact absurd hkey (h data (hway ▸ .here))
  | cons first way =>
    obtain rfl := r.property_of_way_cons hway
    refine ⟨way, by rw [← hpath, hway], fun holder hreach => h holder ?_⟩
    rw [hway]
    exact .field hget hreach

def deleted (m : Migration) : Promise where
  fails := Spared
  loaded _ v := v.Tidy
  migrated key v := ∀ r ∈ m.rules, r.kind = .delete → r.property = key →
    ∃ way, canonical r.path = key :: way ++ [r.field] ∧
      ∀ holder, v.Reaches way holder → r.field ∉ holder.keys

theorem deleted_fulfilled (hrules : ∀ r ∈ m.rules, r.action.Tidy)
    (hvalues : ∀ key, Result.Meets Spared (fun v => ∀ w ∈ v, w.Tidy) (p.value key)) :
    m.deleted.Fulfilled m p where
  written := hvalues
  carried value hvalue key := by
    have hsorted : (m.rulesFor key).Pairwise (Rule.runsBefore · ·) :=
      List.pairwise_mergeSort Rule.runsBefore_trans Rule.runsBefore_total _
    have hrules : ∀ r ∈ m.rulesFor key, r.action.Tidy := fun r hr => hrules r (mem_rulesFor.1 hr).1
    have hcarried : Result.Meets Spared (fun last => Rule.Cleared (m.rulesFor key) last.1)
        (m.carryOut value key) := by
      refine carryOut_meets (gather_meets hvalue _) fun data hdata => ?_
      have htidy : (Value.map data).Tidy := Value.tidy_map_iff.2
        ⟨hdata.1, fun e he => hdata.2 e.1 e.2 (Fields.get?_of_mem hdata.1 he)⟩
      have hstart : Rule.Cleared [] data := ⟨htidy, fun r hr => absurd hr List.not_mem_nil⟩
      exact Rule.foldlM_apply_cleared hstart hrules hsorted m.clientResolve
    refine hcarried.imp fun last hlast => ⟨fun v hv r hr hkind hkey => ?_, fun root _ v hv => ?_⟩
    · subst hkey
      exact exists_gone (hlast.gone r (mem_rulesFor.2 ⟨hr, rfl⟩) hkind) hv
    · exact hlast.tidy.get? hv
  unruled name hname := absurd rfl (hname name)

variable {declarations : List Declaration} {clientResolve : Bool}

theorem meets_spared_iff {α : Type} {P : α → Prop} {r : Result α} :
    Result.Meets Spared P r ↔ ¬r.IsMissing ∧ ∀ a, r = .ok a → P a := by
  cases r with
  | ok a =>
    constructor
    · rintro (h | _)
      exact ⟨fun ⟨_, hname⟩ => (nomatch hname), by rintro _ ⟨⟩; exact h⟩
    · exact fun h => .ok (h.2 a rfl)
  | error e =>
    constructor
    · rintro (_ | h)
      exact ⟨fun ⟨name, hname⟩ => h name (Except.error.inj hname), nofun⟩
    · exact fun h => .error fun name hname => h.1 ⟨name, congrArg _ hname⟩

/-- What declarations bring in from elsewhere has maps with different keys, and clients do not fail
for want of a parameter. -/
structure Declaration.Tidy (d : Declaration) : Prop where
  value : ∀ v ∈ d.value, v.Tidy
  client : ∀ client ∈ d.client, ∀ finder entity v, ¬(client.find finder entity v).IsMissing ∧
    ∀ w, client.find finder entity v = .ok w → w.Tidy

theorem Declaration.Tidy.action {d : Declaration} {a : Action} (h : d.Tidy) (hsaid : d.Says a) :
    a.Tidy := by
  cases hsaid with
  | @add source _ hsource _ =>
    cases source with
    | given v => exact h.value v (value_of_sources hsource)
    | _ => trivial
  | @replace source _ hsource _ =>
    cases source with
    | given v => exact h.value v (value_of_sources hsource)
    | _ => trivial
  | @resolve l _ _ _ hclient _ _ =>
    exact fun v => meets_spared_iff.2 (h.client l.client hclient l.finder l.entity v)
  | delete => trivial

/-- A field that a rule deletes is in no map that the rule's way leads to, whatever other rules do
with it and whatever was read before. A property that is deleted as a whole has no value. -/
theorem delete_final {m : Migration} (hm : ofDeclarations declarations clientResolve = .ok m)
    (hdeclarations : ∀ d ∈ declarations, d.Tidy) (hmissing : ∀ key, ¬(p.value key).IsMissing)
    (hvalues : ∀ key v, p.value key = .ok (some v) → v.Tidy) {d : Declaration}
    (hd : d ∈ declarations) (hkind : d.kind = .delete) {key : String} {segments : List String}
    (hpath : canonical d.path = key :: segments) (earlier : List PropertyView.Request) {v : Value}
    (hread : (((PropertyView.mk p (some m)).read key).run
      (((PropertyView.mk p (some m)).answers earlier).run .empty).2).1 = .ok (some v)) :
    ∃ way field, segments = way ++ [field] ∧
      ∀ holder, v.Reaches way holder → field ∉ holder.keys := by
  obtain ⟨rules, hrules, rfl⟩ := ofDeclarations_eq_ok_iff.1 hm
  have hmem {r : Rule} : r ∈ (ofRules rules clientResolve).rules ↔ r ∈ rules := List.mem_mergeSort
  have htidy : ∀ r ∈ (ofRules rules clientResolve).rules, r.action.Tidy := by
    intro r hr
    obtain ⟨d, hd, hcheck⟩ := exists_declaration hrules (hmem.1 hr)
    exact (hdeclarations d hd).action (Declaration.check_eq_ok_iff.1 hcheck).2.2
  have hloaded (key : String) :
      Result.Meets Spared (fun v => ∀ w ∈ v, w.Tidy) (p.value key) :=
    meets_spared_iff.2 ⟨hmissing key, fun v hv w hw => hvalues key w (hw ▸ hv)⟩
  obtain ⟨r, hr, hcheck⟩ := exists_rule hrules hd
  obtain ⟨-, hrpath, hsaid⟩ := Declaration.check_eq_ok_iff.1 hcheck
  rw [← hrpath] at hpath
  have hproperty : r.property = key := by simp [Rule.property, hpath]
  have haffects := affects_target (hmem.2 hr)
  have hmeets := PropertyView.read_of_fulfilled (deleted_fulfilled htidy hloaded) earlier key
  rw [hread] at hmeets
  have hdeleted := hmeets.of_ok v rfl
  rw [hproperty] at haffects
  rw [if_pos haffects] at hdeleted
  obtain ⟨way, hway, hgone⟩ := hdeleted r (hmem.2 hr) (hsaid.kind_eq.trans hkind) hproperty
  rw [hpath] at hway
  exact ⟨way, r.field, List.cons.inj hway |>.2, hgone⟩

/-- One identifier is moved out of the networks, and none of the others is left in them. -/
theorem delete_final_of_networks :
    let given : Fields Value := [("networks", .list [.map [("uuid", .text "n")],
      .map [("port", .text "p"), ("uuid", .text "q")], .text "default"])]
    let delete : Declaration := { kind := .delete, path := ["networks", "uuid"] }
    let move : Declaration :=
      { kind := .replace, path := ["network"], topPath := some ["networks", "0", "uuid"] }
    let declarations := [move, delete]
    let v : Value := .list [.map [], .map [("port", .text "p")], .text "default"]
    ∃ m, ofDeclarations declarations true = .ok m ∧ (∀ d ∈ declarations, d.Tidy) ∧
      (Value.map given).Tidy ∧
      (((PropertyView.mk (.ofValues given) (some m)).read "networks").run
        (((PropertyView.mk (.ofValues given) (some m)).answers [.all]).run .empty).2).1 =
          .ok (some v) ∧
      ∃ way field, ["uuid"] = way ++ [field] ∧
        ∀ holder, v.Reaches way holder → field ∉ holder.keys := by
  intro given delete move declarations v
  have htidy : ∀ d ∈ declarations, d.Tidy := by
    intro d hd
    simp only [declarations, List.mem_cons, List.not_mem_nil, or_false] at hd
    obtain rfl | rfl := hd <;> exact ⟨nofun, nofun⟩
  have hgiven : (Value.map given).Tidy := rfl
  have hdelete : delete ∈ declarations := by simp [declarations]
  let m : Migration :=
    ⟨[⟨["network"], .replace (.top ["networks", "0", "uuid"] none), by decide⟩,
      ⟨["networks", "uuid"], .delete, by decide⟩], true⟩
  have hm : ofDeclarations declarations true = .ok m :=
    congrArg Except.ok (ofRules_of_pairwise (by decide) true)
  have hread : (((PropertyView.mk (.ofValues given) (some m)).read "networks").run
      (((PropertyView.mk (.ofValues given) (some m)).answers [.all]).run .empty).2).1 =
        .ok (some v) := by
    with_unfolding_all rfl
  refine ⟨m, hm, htidy, hgiven, hread, ?_⟩
  refine delete_final hm htidy ?_ ?_ hdelete rfl rfl [.all] hread
  · rintro key ⟨name, hname⟩
    cases hname
  · intro key v hv
    exact hgiven.get? (Option.filter_eq_some_iff.1 (Except.ok.inj hv)).1

end Migration

end Orchestration
