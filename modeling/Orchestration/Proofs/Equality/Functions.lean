import Orchestration.Proofs.Equality.Arguments
import Orchestration.Proofs.Values.Collections
import Orchestration.Proofs.Values.Writing

namespace Orchestration

namespace Evaluation

theorem attributeAt_alike (r : Resource) (field : String) {path path' : List Value}
    (h : List.Forall₂ Value.Alike path path') :
    Result.Alike Value.Alike (r.attributeAt field path) (r.attributeAt field path') :=
  (Result.Alike.refl Value.Alike.refl _).map fun _ _ hv => rel_getD (hv.select? h) (.refl _)

namespace Site

variable (site : Site)

section

variable {args args' : Arguments} (h : args.Alike site.stack args')

include h

theorem parameter_alike : Inquiry.Alike site.stack.truthOf Value.Alike (site.parameter args)
    (site.parameter args') := by
  unfold parameter
  refine h.whole.value.bind fun v w hv => ?_
  extract_lets named
  have hnamed {name name' : Value} {path path' : List Value} (hname : name.Alike name')
      (hpath : List.Forall₂ Value.Alike path path') : Inquiry.Alike site.stack.truthOf Value.Alike
        (named (name, path)) (named (name', path')) := by
    cases hname.cases with
    | scalar s =>
      cases s with
      | text name =>
        refine Inquiry.Alike.bind (.refl Value.Alike.refl _) fun v w hv => .pure ?_
        cases hpath with
        | nil => exact hv
        | cons hfirst hrest => exact rel_getD (hv.select? (.cons hfirst hrest)) (.refl _)
      | _ => exact .error
    | _ => exact .error
  cases hv.cases with
  | scalar => exact hnamed (.refl _) .nil
  | list hitems =>
    cases hitems with
    | nil => exact .error
    | cons hname hpath => exact hnamed hname hpath
  | map hm => exact hnamed hm .nil

theorem resource_alike : Inquiry.Alike site.stack.truthOf Value.Alike (site.resource args)
    (site.resource args') := by
  unfold resource
  rw [h.whole.written.text?_eq]
  exact .refl .refl _

theorem file_alike : Inquiry.Alike site.stack.truthOf Value.Alike (site.file args)
    (site.file args') := by
  unfold file
  rw [h.whole.written.text?_eq]
  exact .refl .refl _

theorem attributeOf_alike : Inquiry.Alike site.stack.truthOf Value.Alike (site.attributeOf args)
    (site.attributeOf args') := by
  have hitems := h.items
  unfold attributeOf
  generalize args.items = os at hitems
  generalize args'.items = os' at hitems
  have htarget : os.head?.bind (·.written.text?) = os'.head?.bind (·.written.text?) := by
    cases hitems with
    | nil => rfl
    | cons ho _ => exact ho.written.text?_eq
  rw [htarget]
  generalize (os'.head?.bind (·.written.text?)).bind site.stack.resources.get? = target
  dsimp only
  cases target.filter (·.available) with
  | none => exact .pure (.refl _)
  | some r =>
    rcases hitems with _ | ⟨_, _ | ⟨hfield, hpath⟩⟩
    · exact .error
    · exact .error
    · refine hfield.value.bind fun v w hv => ?_
      cases hv.cases with
      | scalar s =>
        cases s with
        | text field =>
          refine Inquiry.Alike.bind (.mapM hpath fun o o' ho => ho.value) fun path path' hpath => ?_
          exact .lift (attributeAt_alike r field hpath)
        | _ => exact .error
      | _ => exact .error

theorem mapping_alike : Inquiry.Alike site.stack.truthOf Value.Alike (site.mapping args)
    (site.mapping args') := by
  have hname {o o' : Operand} {f : Value → Inquiry String} (ho : o.Alike site.stack o')
      (hlist : ∀ vs ws, Inquiry.Alike site.stack.truthOf (· = ·) (f (.list vs)) (f (.list ws)))
      (hmap : ∀ m n, Inquiry.Alike site.stack.truthOf (· = ·) (f (.map m)) (f (.map n))) :
      Inquiry.Alike site.stack.truthOf (· = ·) (o.value >>= f) (o'.value >>= f) := by
    refine ho.value.bind fun v w hv => ?_
    cases hv.cases with
    | scalar => exact .refl (fun _ => rfl) _
    | list => exact hlist _ _
    | map => exact hmap _ _
  unfold mapping
  refine triple_alike h fun hmapping hkey hfield =>
    (hname hmapping (fun _ _ => by exact .error) fun _ _ => by exact .error).bind ?_
  rintro mapping _ rfl
  refine (hname hkey (fun _ _ => by exact .error) fun _ _ => by exact .error).bind ?_
  rintro key _ rfl
  refine (hname hfield (fun _ _ => by exact .error) fun _ _ => by exact .error).bind ?_
  rintro field _ rfl
  exact .refl .refl _

theorem select_alike : Inquiry.Alike site.stack.truthOf Value.Alike (site.select args)
    (site.select args') := by
  unfold select
  refine pair_alike h fun hindex hcollection => ?_
  refine hindex.value.bind fun v w hv => hcollection.value.bind fun u x hu => .lift ?_
  exact Collection.select_alike hv hu

theorem memberList_alike : Inquiry.Alike site.stack.truthOf Value.Alike (site.memberList args)
    (site.memberList args') := by
  unfold memberList
  refine triple_alike h @fun _ key _ field _ _ hkey hfield hmembers => ?_
  rw [hkey.written.text?_eq, hfield.written.text?_eq]
  cases key.written.text? with
  | none => exact .error
  | some key =>
  cases field.written.text? with
  | none => exact .error
  | some field =>
  refine hmembers.value.bind fun v w hv => ?_
  cases hv.cases with
  | list hmembers =>
    dsimp only
    rw [Value.Alike.mapM_text? hmembers]
    exact .refl .refl _
  | _ => exact .error

theorem merge_alike : Inquiry.Alike site.stack.truthOf Value.Alike (merge args) (merge args') := by
  unfold merge
  refine Inquiry.Alike.map (R := fun m m' => Value.Alike (.map m) (.map m')) ?_ fun _ _ h => h
  refine .foldlM h.items (fun m m' o o' hm ho => ?_) (.refl _)
  exact ho.value.bind fun v w hv => .lift (Collection.merge_alike hm hv)

theorem rename_alike : Inquiry.Alike site.stack.truthOf Value.Alike (site.rename args)
    (site.rename args') := by
  unfold rename
  refine pair_alike h fun hinput hreplacements => hinput.value.bind fun v w hv => ?_
  cases hv.cases with
  | @map input input' hinput =>
    refine hreplacements.value.bind fun v w hv => ?_
    cases hv.cases with
    | @map given given' hgiven =>
      dsimp only
      rw [hgiven.keys_perm.all_eq]
      split
      · refine Inquiry.Alike.bind (.lift (Collection.replacements_alike _ hgiven)) ?_
        intro keys keys' hkeys
        refine Inquiry.Alike.bind (.lift (Collection.replacements_alike _ hgiven)) ?_
        intro values values' hvalues
        have hrename := Collection.rename_alike hinput hkeys hvalues
        exact Inquiry.Alike.map (.lift hrename) fun _ _ h => h
      · exact .error
    | _ => exact .error
  | _ => exact .error

theorem filter_alike : Inquiry.Alike site.stack.truthOf Value.Alike (site.filter args)
    (site.filter args') := by
  unfold filter
  refine pair_alike h fun hremoved hkept => hremoved.value.bind fun v w hv => ?_
  extract_lets rest rest'
  have hrest {removed removed' : List Value} (hr : List.Forall₂ Value.Alike removed removed') :
      Inquiry.Alike site.stack.truthOf Value.Alike (rest removed) (rest' removed') := by
    refine hkept.value.bind fun v w hv => ?_
    cases hv.cases with
    | list hkept => exact .pure (Value.Alike.list_iff.2 (Collection.filter_alike hr hkept))
    | _ => exact .error
  cases hv.cases with
  | scalar s =>
    cases s with
    | null => exact hrest .nil
    | _ => exact .error
  | list hr => exact hrest hr
  | _ => exact .error

theorem concat_alike (unique : Bool) : Inquiry.Alike site.stack.truthOf Value.Alike
    (site.concat unique args) (site.concat unique args') := by
  unfold concat
  refine Inquiry.Alike.map (R := List.Forall₂ Value.Alike) ?_ fun _ _ => Value.Alike.list_iff.2
  refine .foldlM h.items (fun found found' o o' hfound ho => ?_) .nil
  refine ho.value.bind fun v w hv => ?_
  cases hv.cases with
  | scalar s =>
    cases s with
    | null => exact .pure hfound
    | _ => exact .error
  | list hitems => exact .pure (Collection.append_alike unique hfound hitems)
  | _ => exact .error

theorem contains_alike : Inquiry.Alike site.stack.truthOf Value.Alike (site.contains args)
    (site.contains args') := by
  unfold contains
  refine pair_alike h fun hneedle hhaystack => ?_
  refine hneedle.value.bind fun needle needle' hv => hhaystack.value.bind fun v w hw => ?_
  cases hw.cases with
  | list hitems =>
    exact .pure (congrArg Value.sortKeys (congrArg Value.bool (Value.Alike.among hitems hv)))
  | _ => exact .error

theorem join_alike (multiple : Bool) : Inquiry.Alike site.stack.truthOf Value.Alike
    (site.join multiple args) (site.join multiple args') := by
  have hitems := h.items
  unfold join
  generalize args.items = os at hitems
  generalize args'.items = os' at hitems
  cases hitems with
  | nil => exact .error
  | cons hdelimiter hlists =>
    refine hdelimiter.value.bind fun v w hv => ?_
    refine Inquiry.Alike.bind (.lift (Writing.text_alike _ hv)) ?_
    rintro delimiter _ rfl
    refine Inquiry.Alike.bind (R := List.Forall₂ (· = ·)) (.mapM hlists fun o o' ho => ?_) ?_
    · exact ho.value.bind fun v w hv => .lift (Writing.itemTexts_alike multiple hv)
    · intro texts texts' htexts
      rw [List.forall₂_eq_eq_eq] at htexts
      exact .pure (htexts ▸ .refl _)

theorem split_alike : Inquiry.Alike site.stack.truthOf Value.Alike (site.split args)
    (site.split args') := by
  have hitems := h.items
  unfold split
  generalize args.items = os at hitems
  generalize args'.items = os' at hitems
  rcases hitems with _ | ⟨hdelimiter, _ | ⟨hs, hindex⟩⟩
  · exact .error
  · exact .error
  · refine hdelimiter.value.bind fun v w hv => ?_
    refine Inquiry.Alike.bind (.lift (Writing.text_alike _ hv)) ?_
    rintro delimiter _ rfl
    refine hs.value.bind fun v w hv => ?_
    refine Inquiry.Alike.bind (.lift (Writing.splitText_alike hv)) ?_
    rintro s _ rfl
    dsimp only
    split
    · exact .error
    · cases hindex with
      | nil => exact .pure (.refl _)
      | cons hindex _ =>
        refine hindex.value.bind fun v w hv => ?_
        rw [Writing.piece_eq _ hv]
        exact .refl .refl _

theorem base64_alike : Inquiry.Alike site.stack.truthOf Value.Alike (site.base64 args)
    (site.base64 args') := by
  unfold base64
  refine h.whole.value.bind fun v w hv => Inquiry.Alike.bind (.lift (Writing.text_alike _ hv)) ?_
  rintro s _ rfl
  exact .pure (.refl _)

theorem digest_alike : Inquiry.Alike site.stack.truthOf Value.Alike (site.digest args)
    (site.digest args') := by
  unfold digest
  refine pair_alike h fun halgorithm hs => halgorithm.value.bind fun v w hv => ?_
  refine Inquiry.Alike.bind (.lift (Writing.text_alike _ hv)) ?_
  rintro algorithm _ rfl
  refine hs.value.bind fun v w hv => ?_
  refine Inquiry.Alike.bind (.lift (Writing.text_alike _ hv)) ?_
  rintro s _ rfl
  exact .refl .refl _

theorem equals_alike : Inquiry.Alike site.stack.truthOf Value.Alike (site.equals args)
    (site.equals args') := by
  unfold equals
  refine pair_alike h fun hleft hright => ?_
  refine hleft.value.bind fun v v' hv => hright.value.bind fun w w' hw => .pure ?_
  rw [hv.equal hw]
  exact .refl _

omit h in
theorem decide_alike {stack : Stack} (stop : Bool) {os os' : List Operand}
    (h : List.Forall₂ (Operand.Alike stack) os os') :
    Inquiry.Alike stack.truthOf (· = ·) (decide stop os) (decide stop os') := by
  induction h with
  | nil => exact .pure rfl
  | cons ho _ ih =>
    refine ho.isEnabled.bind ?_
    rintro b _ rfl
    split
    · exact .pure rfl
    · exact ih

theorem connective_alike (c : Connective) : Inquiry.Alike site.stack.truthOf Value.Alike
    (connective c args) (connective c args') := by
  unfold connective
  refine Inquiry.Alike.map (decide_alike _ h.items) ?_
  rintro b _ rfl
  exact .refl _

theorem negation_alike : Inquiry.Alike site.stack.truthOf Value.Alike (site.negation args)
    (site.negation args') := by
  unfold negation
  have hparts := h.parts
  generalize args.parts = parts at hparts
  generalize args'.parts = parts' at hparts
  extract_lets operand operand'
  have hoperand : Option.Rel (Operand.Alike site.stack) operand operand' := by
    cases hparts with
    | single => exact .some h.whole
    | items hitems =>
      cases hitems with
      | nil => exact .none
      | cons ho _ => exact .some ho
    | fields => exact .some h.whole
  clear_value operand operand'
  cases hoperand with
  | none => exact .error
  | some ho =>
    refine ho.value.bind fun v w hv => ?_
    cases hv.cases with
    | scalar s =>
      cases s with
      | bool b => exact .pure (.refl _)
      | _ => exact .error
    | _ => exact .error

theorem choice_alike : Inquiry.Alike site.stack.truthOf Value.Alike (site.choice args)
    (site.choice args') := by
  unfold choice
  refine triple_alike h fun hcondition hyes hno => hcondition.isEnabled.bind ?_
  rintro b _ rfl
  cases b with
  | true => exact hyes.value
  | false => exact hno.value

theorem condition_alike : Inquiry.Alike site.stack.truthOf Value.Alike (site.condition args)
    (site.condition args') := by
  unfold condition
  rw [h.whole.written.text?_eq]
  exact .refl .refl _

end

end Site

end Evaluation

end Orchestration
