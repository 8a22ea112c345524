import Orchestration.Proofs.Migration.Deletion

namespace Orchestration

namespace Migration

variable {m : Migration} {p : Properties} {data : Fields Value} {names : List String}

structure Listed (names : List String) (data : Fields Value) : Prop where
  nodup : data.keys.Nodup
  subset : data.keys ⊆ names

theorem Listed.mem (h : Listed names data) {key : String} {v : Value}
    (hv : data.get? key = some v) : key ∈ names :=
  h.subset ((Fields.contains_iff _ _).1 (by simp [Fields.contains, hv]))

theorem keys_removeAll_sublist (paths : List (List String)) (data : Fields Value) :
    (paths.foldl remove data).keys.Sublist data.keys := by
  induction paths generalizing data with
  | nil => exact .refl _
  | cons path paths ih =>
    refine (ih _).trans ?_
    cases path with
    | nil => rw [remove]
    | cons key path =>
      rw [remove_cons]
      exact data.keys_alter_sublist

namespace Rule

variable {r : Rule}

theorem delete_listed (h : r.kind = .delete) (clientResolve : Bool) (data : Fields Value) :
    Run.Meets (fun _ => True) (fun _ => True)
      (fun changed => changed.keys.Sublist data.keys) (r.apply clientResolve data) := by
  obtain ⟨changed, hrevised, happly⟩ := r.apply_delete h clientResolve data
  rw [happly]
  refine .pure ?_
  generalize r.way = way at hrevised
  cases hrevised with
  | here h =>
    rw [h]
    exact data.keys_erase_sublist r.field
  | field hget _ => rw [Fields.keys_insert_of_get? hget]
  | missing => exact .refl _

theorem apply_listed (hr : r.kind ≠ .delete → r.property ∈ names) (clientResolve : Bool)
    (hd : Listed names data) :
    Run.Meets (fun _ => True) (fun _ => True) (Listed names) (r.apply clientResolve data) := by
  by_cases hdelete : r.kind = .delete
  · refine (delete_listed hdelete clientResolve data).imp fun changed hsub => ?_
    exact ⟨hd.nodup.sublist hsub, fun key hkey => hd.subset (hsub.subset hkey)⟩
  · refine fun before _ => ⟨.of_forall fun changed hchanged => ?_, trivial⟩
    have hsame := apply_sameBut hd.nodup (Prod.ext hchanged rfl)
    refine ⟨hsame.nodup, fun key hkey => ?_⟩
    by_cases hproperty : key = r.property
    · exact hproperty ▸ hr hdelete
    · have hget := hsame.get? key hproperty
      rw [← Fields.contains_iff, Fields.contains, hget, ← Fields.contains,
        Fields.contains_iff] at hkey
      exact hd.subset ((keys_removeAll_sublist _ _).subset hkey)

end Rule

def listing (names : List String) : Promise where
  fails _ := True
  loaded key _ := key ∈ names
  migrated key _ := key ∈ names

theorem listing_fulfilled (htargets : m.targets ⊆ names)
    (hwritten : ∀ key v, p.value key = .ok (some v) → key ∈ names) :
    (listing names).Fulfilled m p where
  written key := .of_forall fun v hv w hw => hwritten key w (hw ▸ hv)
  carried value hvalue key := by
    have hrules : ∀ r ∈ m.rulesFor key, r.kind ≠ .delete → r.property ∈ names := by
      intro r hr hkind
      have hkept : decide (r.kind ≠ .delete) = true := decide_eq_true hkind
      exact htargets (List.mem_map_of_mem (List.mem_filter.2 ⟨(mem_rulesFor.1 hr).1, hkept⟩))
    have hcarried : Result.Meets (fun _ => True) (fun last => Listed names last.1)
        (m.carryOut value key) := by
      refine carryOut_meets (gather_meets hvalue _) fun data hdata => ?_
      have hlisted : Listed names data := by
        refine ⟨hdata.1, fun key hkey => ?_⟩
        obtain ⟨v, hv⟩ := Option.isSome_iff_exists.1 ((Fields.contains_iff data key).2 hkey)
        exact hdata.2 key v hv
      exact .foldlM (fun data hdata r hr => Rule.apply_listed (hrules r hr) m.clientResolve hdata)
        hlisted
    exact hcarried.imp fun last hlast => ⟨fun v hv => hlast.mem hv, fun root _ v hv => hlast.mem hv⟩
  unruled _ _ _ _ h := h

end Migration

namespace PropertyView

variable {stack : Stack} {s : Option Snippet} {p : Properties} {m : Migration}

theorem nodup_foldl_add (targets : List String) {names : List String} (h : names.Nodup) :
    (targets.foldl (fun keys key => if keys.contains key then keys else keys ++ [key])
      names).Nodup := by
  induction targets generalizing names with
  | nil => exact h
  | cons target targets ih =>
    rw [List.foldl_cons]
    refine ih ?_
    split
    · exact h
    · next hnot =>
      rw [← List.concat_eq_append]
      exact h.concat (by simpa using hnot)

theorem collectOne_run {read : String → Migration.Reading (Option Value)}
    {found next : Fields Value} {key : String} {tables after : Migration.Tables}
    (h : (collectOne read found key).run tables = (.ok next, after)) :
    ∃ v, (read key).run tables = (.ok v, after) ∧ next = v.elim found (found.insert key) := by
  obtain ⟨v, mid, hread, hnext⟩ := Run.exists_of_bind h
  cases v <;> cases hnext <;> exact ⟨_, hread, rfl⟩

theorem foldlM_collectOne_get? {read : String → Migration.Reading (Option Value)}
    {keys : List String} {found all : Fields Value} {tables after : Migration.Tables} {key : String}
    (hkey : key ∉ keys)
    (h : (keys.foldlM (collectOne read) found).run tables = (.ok all, after)) :
    all.get? key = found.get? key := by
  induction keys generalizing found tables with
  | nil =>
    cases h
    rfl
  | cons first keys ih =>
    obtain ⟨hne, hrest⟩ := not_or.1 (mt List.mem_cons.2 hkey)
    rw [List.foldlM_cons] at h
    obtain ⟨next, mid, hfirst, h⟩ := Run.exists_of_bind h
    obtain ⟨v, -, rfl⟩ := collectOne_run hfirst
    rw [ih hrest h]
    cases v with
    | none => rfl
    | some v => rw [Option.elim_some, Fields.get?_insert, if_neg (Ne.symm hne)]

theorem exists_read_of_mem {view : PropertyView} {all : Fields Value}
    {after : Migration.Tables} {key : String} (hkeys : view.keys.Nodup) (hkey : key ∈ view.keys)
    (h : view.readAll.run .empty = (.ok all, after)) :
    ∃ front back found mid r later, view.keys = front ++ key :: back ∧
      (front.foldlM (collectOne view.read) []).run .empty = (.ok found, mid) ∧
      (view.read key).run mid = (.ok r, later) ∧ all.get? key = r := by
  obtain ⟨front, back, hsplit⟩ := List.append_of_mem hkey
  rw [hsplit] at hkeys
  obtain ⟨-, hback, hapart⟩ := List.nodup_append.1 hkeys
  rw [readAll, collect, hsplit, List.foldlM_append] at h
  obtain ⟨found, mid, hfront, h⟩ := Run.exists_of_bind h
  rw [List.foldlM_cons] at h
  obtain ⟨next, later, hone, h⟩ := Run.exists_of_bind h
  obtain ⟨r, hread, rfl⟩ := collectOne_run hone
  refine ⟨front, back, found, mid, r, later, hsplit, hfront, hread, ?_⟩
  -- the keys before and after it are others, so they neither bring it up nor write over it
  rw [foldlM_collectOne_get? (List.nodup_cons.1 hback).1 h]
  cases r with
  | some v => rw [Option.elim_some, Fields.get?_insert, if_pos rfl]
  | none =>
    have hfront' : key ∉ front := fun hmem => hapart key hmem key List.mem_cons_self rfl
    exact foldlM_collectOne_get? hfront' hfront

/-- Every property with a value is listed, once, so reading all properties reads it. -/
theorem keys_complete (hp : Properties.ofSnippet stack s = .ok p) (hnames : p.names.Nodup)
    (m : Migration) :
    let view : PropertyView := ⟨p, some m⟩
    view.keys.Nodup ∧
    (∀ earlier key v, ((view.read key).run ((view.answers earlier).run .empty).2).1 = .ok (some v) →
      key ∈ view.keys) ∧
    ∀ all after, view.readAll.run .empty = (.ok all, after) →
      ∀ key v, view.fresh key = .ok (some v) →
        ∃ front back found mid r later, view.keys = front ++ key :: back ∧
          (front.foldlM (collectOne view.read) []).run .empty = (.ok found, mid) ∧
          (view.read key).run mid = (.ok r, later) ∧ all.get? key = r := by
  intro view
  have hnodup : view.keys.Nodup := nodup_foldl_add _ hnames
  have hfulfilled : (Migration.listing view.keys).Fulfilled m p := by
    refine Migration.listing_fulfilled (fun key hkey => ?_) fun key v hv => ?_
    · exact mem_keys.2 (.inr ⟨m, rfl, hkey⟩)
    · exact mem_keys.2 (.inl (Properties.mem_names hp hv))
  have hlisted : ∀ earlier key v,
      ((view.read key).run ((view.answers earlier).run .empty).2).1 = .ok (some v) →
        key ∈ view.keys := by
    intro earlier key v hread
    have hmeets := read_of_fulfilled hfulfilled earlier key
    rw [hread] at hmeets
    have hkey := hmeets.of_ok v rfl
    split at hkey <;> exact hkey
  refine ⟨hnodup, hlisted, fun all after hall key v hfresh => ?_⟩
  exact exists_read_of_mem hnodup (hlisted [] key v hfresh) hall

theorem keys_complete_of_network : ∃ t stack p m all after,
    Template.ofValue (.map [("heat_template_version", .text "2016-10-14")]) = .ok t ∧
      Stack.make ⟨"s"⟩ "s" t [] (StaticResources.toResources []) = .ok stack ∧
      Properties.ofSnippet stack (some (.map [("old", .map [("net", .text "n")])])) = .ok p ∧
      p.names.Nodup ∧
      Migration.ofDeclarations
        [{ kind := .replace, path := ["network"], topPath := some ["old", "net"] }] true = .ok m ∧
      let view : PropertyView := ⟨p, some m⟩
      view.readAll.run .empty = (.ok all, after) ∧
      view.fresh "network" = .ok (some (.text "n")) ∧ "network" ∉ p.names ∧
      ∃ front back found mid r later, view.keys = front ++ "network" :: back ∧
        (front.foldlM (collectOne view.read) []).run .empty = (.ok found, mid) ∧
        (view.read "network").run mid = (.ok r, later) ∧ all.get? "network" = r := by
  let p : Properties := .ofValues [("old", .map [("net", .text "n")])]
  let m : Migration := ⟨[⟨["network"], .replace (.top ["old", "net"] none), by decide⟩], true⟩
  let view : PropertyView := ⟨p, some m⟩
  have hp (stack : Stack) : Properties.ofSnippet stack
      (some (.map [("old", .map [("net", .text "n")])])) = .ok p :=
    congrArg Except.ok (Properties.ofSnippets_eq_ofValues (.cons ⟨rfl, rfl⟩ .nil))
  have hall : view.readAll.run .empty =
      (.ok [("old", .map []), ("network", .text "n")], (view.readAll.run .empty).2) :=
    Prod.ext (by with_unfolding_all rfl) rfl
  have hfresh : view.fresh "network" = .ok (some (.text "n")) := by with_unfolding_all rfl
  obtain ⟨t, stack, ht, hs⟩ : ∃ t stack,
    Template.ofValue (.map [("heat_template_version", .text "2016-10-14")]) = .ok t ∧
      Stack.make ⟨"s"⟩ "s" t [] (StaticResources.toResources []) = .ok stack := ⟨_, _, rfl, rfl⟩
  refine ⟨t, stack, p, m, _, _, ht, hs, hp stack, by decide,
    congrArg Except.ok (Migration.ofRules_of_pairwise (by decide) true), hall, hfresh, by decide,
    ?_⟩
  exact (keys_complete (hp stack) (by decide) m).2.2 _ _ hall _ _ hfresh

end PropertyView

end Orchestration
