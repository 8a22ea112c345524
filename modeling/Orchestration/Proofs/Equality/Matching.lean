import Orchestration.Proofs.Snippets.RoundTrip
import Orchestration.Proofs.Values.Loops

namespace Orchestration

namespace Value

theorem text?_eq_of_equal {v w : Value} (h : v.equal w = true) : v.text? = w.text? := by
  cases v with
  | scalar a =>
    cases w with
    | scalar b => cases a <;> cases b <;> simp_all [equal, Scalar.equal, text?]
    | _ => cases h
  | list xs =>
    cases w with
    | list ys => rfl
    | _ => cases h
  | map xs =>
    cases w with
    | map ys => rfl
    | _ => cases h

theorem eq_singleton_of_equal {name : String} {v : Value} {m : Fields Value}
    (h : (Value.map [(name, v)]).equal (.map m) = true) :
    ∃ w, m = [(name, w)] ∧ v.equal w = true := by
  obtain ⟨hlength, hwithin⟩ := Bool.and_eq_true_iff.1 h
  match m, hlength with
  | [(key, w)], _ =>
    have hwithin := (Bool.and_eq_true_iff.1 hwithin).1
    by_cases hkey : key = name
    · subst hkey
      exact ⟨w, rfl, by simpa [Fields.get?] using hwithin⟩
    · simp [Fields.get?, hkey] at hwithin

theorem eq_singleton_of_equal' {name : String} {v : Value} {m : Fields Value}
    (h : (Value.map m).equal (.map [(name, v)]) = true) :
    ∃ w, m = [(name, w)] ∧ w.equal v = true := by
  obtain ⟨hlength, hwithin⟩ := Bool.and_eq_true_iff.1 h
  match m, hlength with
  | [(key, w)], _ =>
    have hwithin := (Bool.and_eq_true_iff.1 hwithin).1
    by_cases hkey : name = key
    · subst hkey
      exact ⟨w, rfl, by simpa [Fields.get?] using hwithin⟩
    · simp [Fields.get?, hkey] at hwithin

end Value

theorem Form.Builds.fn_eq {site : Form.Site} {form : Form} {fn fn' : Intrinsic}
    {written args written' args' : Snippet} (h : form.Builds site written fn args)
    (h' : form.Builds site written' fn' args') (htext : args.text? = args'.text?) : fn = fn' := by
  cases h with
  | plain hplain =>
    cases h' with
    | plain hplain' => exact Option.some.inj (hplain.symm.trans hplain')
    | _ => cases hplain
  | referredResource hmode hres =>
    cases h' with
    | plain hplain => cases hplain
    | referredResource => rfl
    | referredParameter hno =>
      have := hno _ (Snippet.eq_text_of_text? htext.symm) hmode
      simp_all
  | referredParameter hno =>
    cases h' with
    | plain hplain => cases hplain
    | referredResource hmode hres =>
      have := hno _ (Snippet.eq_text_of_text? htext) hmode
      simp_all
    | referredParameter => rfl
  | dotted =>
    cases h' with
    | plain hplain => cases hplain
    | _ => rfl
  | pair =>
    cases h' with
    | plain hplain => cases hplain
    | _ => rfl
  | facade hfield =>
    cases h' with
    | plain hplain => cases hplain
    | facade hfield' =>
      rw [htext, hfield'] at hfield
      rw [Option.some.inj hfield]

variable {t : Template} {stack : StackId}

theorem Template.holds_iff {p : Parser} {s : Snippet} :
    t.Holds stack p s ↔ ∃ v, Reads t stack p v s :=
  exists_congr fun _ => snippet_eq_ok_iff

inductive IsMade (t : Template) (stack : StackId) : Call → Snippet → Prop
  | function {name form written fn args} :
    t.version.reading false name = .function form →
    form.Builds ⟨t, false, name⟩ written fn args → IsMade t stack ⟨stack, name, fn⟩ args
  | negation {name args} :
    t.version.reading false name = .negation → IsMade t stack ⟨stack, name, .negation⟩ args
  | unavailable {name args reason} :
    t.version.reading false name = .unavailable reason →
    IsMade t stack ⟨stack, name, .unavailable t.version reason⟩ args

theorem IsMade.reading_ne_data {c : Call} {args : Snippet} (h : IsMade t stack c args) :
    t.version.reading false c.name ≠ .data := by
  cases h with
  | function h => simp [h]
  | negation h => simp [h]
  | unavailable h => simp [h]

theorem IsMade.call_eq {c c' : Call} {args args' : Snippet} (h : IsMade t stack c args)
    (h' : IsMade t stack c' args') (hname : c.name = c'.name) (htext : args.text? = args'.text?) :
    c = c' := by
  cases h with
  | function h hbuild =>
    cases h' with
    | function h' hbuild' =>
      obtain rfl : _ = _ := hname
      cases h.symm.trans h'
      rw [hbuild.fn_eq hbuild' htext]
    | _ => simp_all
  | negation h =>
    cases h' with
    | negation h' =>
      obtain rfl : _ = _ := hname
      rfl
    | _ => simp_all
  | unavailable h =>
    cases h' with
    | unavailable h' =>
      obtain rfl : _ = _ := hname
      cases h.symm.trans h'
      rfl
    | _ => simp_all

theorem ReadsItems.holds_of_mem {vs : List Value} {ss : List Snippet}
    (h : ReadsItems t stack .ordinary vs ss) : ∀ s ∈ ss, t.Holds stack .ordinary s := by
  induction ss generalizing vs with
  | nil => nofun
  | cons s ss ih =>
    cases h with
    | cons h hs => exact List.forall_mem_cons.2 ⟨Template.holds_iff.2 ⟨_, h⟩, ih hs⟩

theorem ReadsFields.holds_of_mem {vs : List (String × Value)} {fields : List (String × Snippet)}
    (h : ReadsFields t stack .ordinary vs fields) : ∀ e ∈ fields, t.Holds stack .ordinary e.2 := by
  induction fields generalizing vs with
  | nil => nofun
  | cons e rest ih =>
    cases h with
    | cons h hs => exact List.forall_mem_cons.2 ⟨Template.holds_iff.2 ⟨_, h⟩, ih hs⟩

namespace Template.Holds

variable {s : Snippet} {ss : List Snippet} {fields : List (String × Snippet)}

theorem of_call {c : Call} {args : Snippet} (h : t.Holds stack .ordinary (.call c args)) :
    IsMade t stack c args ∧ (c.fn ≠ .negation → t.Holds stack .ordinary args) := by
  obtain ⟨v, h⟩ := holds_iff.1 h
  cases h with
  | function hreading h hbuild =>
    have hbuilds := Form.build_eq_ok_iff.1 hbuild
    refine ⟨.function hreading hbuilds, fun _ => ?_⟩
    obtain rfl | ⟨name, field, rfl⟩ := hbuilds.args_eq
    · exact holds_iff.2 ⟨_, h⟩
    · exact holds_iff.2 ⟨_, .list (.cons .scalar (.cons .scalar .nil))⟩
  | negation hreading => exact ⟨.negation hreading, fun hfn => absurd rfl hfn⟩
  | negationOfItem hreading => exact ⟨.negation hreading, fun hfn => absurd rfl hfn⟩
  | unavailable hreading h => exact ⟨.unavailable hreading, fun _ => holds_iff.2 ⟨_, h⟩⟩

theorem of_list (h : t.Holds stack .ordinary (.list ss)) : ∀ s ∈ ss, t.Holds stack .ordinary s := by
  obtain ⟨_, h⟩ := holds_iff.1 h
  cases h with | list h =>
  exact h.holds_of_mem

theorem of_map (h : t.Holds stack .ordinary (.map fields)) :
    ∀ e ∈ fields, t.Holds stack .ordinary e.2 := by
  obtain ⟨_, h⟩ := holds_iff.1 h
  cases h with | map _ h =>
  exact h.holds_of_mem

theorem reading_of_map {name : String} (h : t.Holds stack .ordinary (.map [(name, s)])) :
    t.version.reading false name = .data := by
  obtain ⟨_, h⟩ := holds_iff.1 h
  cases h with
  | map hdata h =>
    obtain ⟨v, rfl⟩ := h.exists_eq_singleton rfl
    exact hdata name v rfl

end Template.Holds

namespace Snippet

inductive Layer (R : Snippet → Snippet → Prop) : Snippet → Snippet → Prop
  | scalar {a b} : a.equal b = true → Layer R (.scalar a) (.scalar b)
  | list {ss ts} : List.Forall₂ R ss ts → Layer R (.list ss) (.list ts)
  | map {ss us ts : Fields Snippet} :
    List.Forall₂ (Fields.Entry R) ss us → us.Perm ts → ss.keys.Nodup →
    Layer R (.map ss) (.map ts)
  | call {c args args'} : R args args' → Layer R (.call c args) (.call c args')

structure Matches (t : Template) (stack : StackId) (s s' : Snippet) : Prop where
  read : t.Holds stack .ordinary s
  read' : t.Holds stack .ordinary s'
  keysApart : s.canonical.keysApart id = true
  equal : s.equal s' = true

variable {s s' : Snippet} {ss ts : List Snippet} {fields fields' : Fields Snippet}

theorem Matches.of_items (h : ∀ s ∈ ss, t.Holds stack .ordinary s)
    (h' : ∀ s ∈ ts, t.Holds stack .ordinary s)
    (hkeys : Value.itemsKeysApart id (canonicalItems ss) = true)
    (hequal : Value.equalItems (canonicalItems ss) (canonicalItems ts) = true) :
    List.Forall₂ (Matches t stack) ss ts := by
  induction ss generalizing ts with
  | nil =>
    cases ts with
    | nil => exact .nil
    | cons => cases hequal
  | cons s ss ih =>
    cases ts with
    | nil => cases hequal
    | cons s' ts =>
      obtain ⟨hs, hss⟩ := List.forall_mem_cons.1 h
      obtain ⟨hs', hts⟩ := List.forall_mem_cons.1 h'
      obtain ⟨hkey, hkeys⟩ := Bool.and_eq_true_iff.1 hkeys
      obtain ⟨heq, hequal⟩ := Bool.and_eq_true_iff.1 hequal
      exact .cons ⟨hs, hs', hkey, heq⟩ (ih hss hts hkeys hequal)

theorem Matches.of_fields {all : Fields Snippet} (h : ∀ e ∈ fields, t.Holds stack .ordinary e.2)
    (h' : ∀ e ∈ all, t.Holds stack .ordinary e.2)
    (hkeys : Value.fieldsKeysApart id (canonicalFields fields) = true)
    (hwithin : Value.within (canonicalFields fields) (canonicalFields all) = true) :
    ∃ us : Fields Snippet,
      List.Forall₂ (Fields.Entry (Matches t stack)) fields us ∧ us ⊆ all := by
  induction fields with
  | nil => exact ⟨[], .nil, List.nil_subset _⟩
  | cons e rest ih =>
    obtain ⟨he, hrest⟩ := List.forall_mem_cons.1 h
    obtain ⟨hkey, hkeys⟩ := Bool.and_eq_true_iff.1 hkeys
    obtain ⟨heq, hwithin⟩ := Bool.and_eq_true_iff.1 hwithin
    obtain ⟨us, hus, hsub⟩ := ih hrest hkeys hwithin
    rw [canonicalFields_eq all, Fields.get?_map] at heq
    cases hget : all.get? e.1 with
    | none => simp [hget] at heq
    | some s' =>
      simp only [hget, Option.map_some] at heq
      have hmem := Fields.mem_of_get? hget
      exact ⟨(e.1, s') :: us, .cons ⟨rfl, he, h' _ hmem, hkey, heq⟩ hus,
        List.cons_subset.2 ⟨hmem, hsub⟩⟩

theorem Matches.of_map (h : Matches t stack (.map fields) (.map fields')) :
    Layer (Matches t stack) (.map fields) (.map fields') := by
  obtain ⟨hread, hread', hkeys, hequal⟩ := h
  obtain ⟨hnodup, hkeys⟩ := Bool.and_eq_true_iff.1 hkeys
  obtain ⟨hlength, hwithin⟩ := Bool.and_eq_true_iff.1 hequal
  obtain ⟨us, hus, hsub⟩ := Matches.of_fields hread.of_map hread'.of_map hkeys hwithin
  have hnodup : fields.keys.Nodup := by
    simpa [canonicalFields_eq, Fields.keys, Function.comp_def] using hnodup
  have hkeys_us : fields.keys = us.keys := Fields.keys_eq hus
  have hlength : fields'.length ≤ us.length := by
    simp only [canonicalFields_eq, List.length_map, beq_iff_eq] at hlength
    rw [← hus.length_eq, hlength]
  have hsubperm : us.Subperm fields' :=
    List.Nodup.subperm (.of_map Prod.fst (show us.keys.Nodup from hkeys_us ▸ hnodup)) hsub
  exact .map hus (hsubperm.perm_of_length_le hlength) hnodup

/-- The operands of two negations are read as if they were written there. -/
def OperandsRead (t : Template) (stack : StackId) : Snippet → Snippet → Prop
  | .call c args, .call _ args' =>
    c.fn = .negation → t.Holds stack .ordinary args ∧ t.Holds stack .ordinary args'
  | _, _ => True

/-- No map that is read is written like a call: it would be read as a call. -/
theorem canonicalFields_ne_call {c : Call} {args : Snippet} {v : Value}
    (hmap : t.Holds stack .ordinary (.map fields))
    (hcall : t.Holds stack .ordinary (.call c args)) : canonicalFields fields ≠ [(c.name, v)] := by
  intro hfields
  rw [canonicalFields_eq] at hfields
  obtain ⟨⟨name, s⟩, rest, rfl, hfirst, hrest⟩ := List.map_eq_cons_iff.1 hfields
  obtain rfl := List.map_eq_nil_iff.1 hrest
  obtain rfl : name = c.name := congrArg Prod.fst hfirst
  exact hcall.of_call.1.reading_ne_data hmap.reading_of_map

theorem Matches.of_call {c c' : Call} {args args' : Snippet}
    (h : Matches t stack (.call c args) (.call c' args'))
    (hoperands : OperandsRead t stack (.call c args) (.call c' args')) :
    Layer (Matches t stack) (.call c args) (.call c' args') := by
  obtain ⟨hread, hread', hkeys, hequal⟩ := h
  obtain ⟨v, hsingle, hargs⟩ := Value.eq_singleton_of_equal hequal
  obtain ⟨hname, rfl⟩ : c'.name = c.name ∧ args'.canonical = v := by simpa using hsingle
  obtain ⟨hmade, hargs_read⟩ := hread.of_call
  obtain ⟨hmade', hargs_read'⟩ := hread'.of_call
  have htext : args.text? = args'.text? := by
    rw [← text?_canonical, ← text?_canonical, Value.text?_eq_of_equal hargs]
  -- a form may make calls of two functions, which a text for the arguments tells apart
  obtain rfl := hmade.call_eq hmade' hname.symm htext
  obtain ⟨hread, hread'⟩ : t.Holds stack .ordinary args ∧ t.Holds stack .ordinary args' := by
    by_cases hfn : c.fn = .negation
    · exact hoperands hfn
    · exact ⟨hargs_read hfn, hargs_read' hfn⟩
  refine .call ⟨hread, hread', ?_, hargs⟩
  simpa [canonical, Value.keysApart, Value.fieldsKeysApart] using hkeys

theorem Matches.layer (h : Matches t stack s s') (hoperands : OperandsRead t stack s s') :
    Layer (Matches t stack) s s' := by
  have ⟨hread, hread', hkeys, hequal⟩ := h
  cases s with
  | scalar a =>
    cases s' with
    | scalar b => exact .scalar hequal
    | _ => cases hequal
  | list ss =>
    cases s' with
    | list ts => exact .list (Matches.of_items hread.of_list hread'.of_list hkeys hequal)
    | _ => cases hequal
  | map fields =>
    cases s' with
    | map fields' => exact h.of_map
    | call c args =>
      obtain ⟨v, hfields, -⟩ := Value.eq_singleton_of_equal' hequal
      exact absurd hfields (canonicalFields_ne_call hread hread')
    | _ => cases hequal
  | call c args =>
    cases s' with
    | map fields' =>
      obtain ⟨v, hfields, -⟩ := Value.eq_singleton_of_equal hequal
      exact absurd hfields (canonicalFields_ne_call hread' hread)
    | call c' args' => exact h.of_call hoperands
    | _ => cases hequal

end Snippet

end Orchestration
