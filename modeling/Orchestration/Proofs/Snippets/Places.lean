import Orchestration.Proofs.Snippets.Inlining
import Orchestration.Proofs.Values.Places

/-!
Where parsers find mistakes. Lists, maps and the arguments of functions are parsed with the
breadcrumb of their place; the operand of a negation is parsed from an empty one, and the place of
the negation is put in front of its mistake. Main statement: the breadcrumb of a mistake leads to
the call that cannot be made, but for the indexes of operands that are the only items of lists,
which it leaves out.
-/

namespace Orchestration

namespace Form

variable (site : Site) (form : Form) (args : Snippet)

@[simp] theorem isBare_refuse {α : Type} (f : CallFault) :
    Result.IsBare (site.refuse f : Result α) := .fault _

@[simp] theorem isBare_refuseShape {α : Type} :
    Result.IsBare (site.refuseShape form : Result α) := .fault _

@[simp] theorem isBare_checkCondition : Result.IsBare (site.checkCondition args) := by
  unfold Site.checkCondition
  split <;> simp

@[simp] theorem isBare_checkAlgorithm : Result.IsBare (site.checkAlgorithm args) := by
  unfold Site.checkAlgorithm
  split <;> simp

@[simp] theorem isBare_checkAttribute : Result.IsBare (site.checkAttribute form args) := by
  unfold Site.checkAttribute
  split <;> simp

@[simp] theorem isBare_checkLoop (zips : Bool) : Result.IsBare (site.checkLoop zips args) := by
  unfold Site.checkLoop
  dsimp only
  split
  · refine .ite ?_ (.bind (isBare_refuseShape site _) fun _ => ?_)
    · split <;> simp
    · split <;> simp
  · simp

@[simp] theorem isBare_checkArity : Result.IsBare (form.checkArity site args) := by
  unfold checkArity
  split <;> simp

@[simp] theorem isBare_checkArgs : Result.IsBare (form.checkArgs site args) := by
  unfold checkArgs
  split <;> simp

@[simp] theorem isBare_buildPlain (fn : Intrinsic) :
    Result.IsBare (form.buildPlain site fn args) :=
  .bind (isBare_checkArity site form args) fun _ => .bind (isBare_checkArgs site form args) fun _ =>
    .pure _

@[simp] theorem isBare_buildParameter : Result.IsBare (buildParameter site args) :=
  isBare_buildPlain site .parameter args .parameter

@[simp] theorem isBare_buildDotted : Result.IsBare (buildDotted site args) := by
  unfold buildDotted
  split
  · split <;> simp
  · exact (isBare_checkAttribute site _ _).bind fun _ => .pure _
  · simp

theorem isBare_build : Result.IsBare (form.build site args) := by
  cases form with
  | reference =>
    unfold build
    dsimp only
    split <;> simp
  | facade =>
    unfold build
    dsimp only
    split <;> simp
  | dottedAttribute => exact isBare_buildDotted site args
  | base64 => exact .pure _
  | _ => exact isBare_buildPlain site _ args _

end Form

/-- A call stands in a value at the end of a way. The breadcrumb that a parser writes leaves out the
indexes of operands that are the only items of lists. -/
inductive Value.CallAt (version : Version) (inConditions : Bool) :
    Value → Breadcrumb → Breadcrumb → String → Value → Prop
  | here {word args} : CallAt version inConditions (.map [(word, args)]) [] [] word args
  | item {vs i v shown way word args} :
    vs[i]? = some v → CallAt version inConditions v shown way word args →
    CallAt version inConditions (.list vs) (.index i :: shown) (.index i :: way) word args
  | field {vs key v shown way word args} :
    (key, v) ∈ vs →
    (∀ x, vs = [(key, .list [x])] → version.isHot = false →
      version.reading inConditions key ≠ .negation) →
    CallAt version inConditions v shown way word args →
    CallAt version inConditions (.map vs) (.key key :: shown) (.key key :: way) word args
  | onlyItem {key v shown way word args} :
    version.reading inConditions key = .negation → version.isHot = false →
    CallAt version inConditions v shown way word args →
    CallAt version inConditions (.map [(key, .list [v])]) (.key key :: shown)
      (.key key :: .index 0 :: way) word args

namespace Value.CallAt

variable {version : Version} {inConditions : Bool} {v args : Value} {shown way : Breadcrumb}
  {word : String}

theorem argument {key : String} (hreading : version.reading inConditions key ≠ .negation)
    (h : v.CallAt version inConditions shown way word args) :
    (map [(key, v)]).CallAt version inConditions (.key key :: shown) (.key key :: way) word args :=
  .field (List.mem_singleton_self _) (fun _ _ _ => hreading) h

theorem follow? (h : v.CallAt version inConditions shown way word args) :
    v.keysApart id = true → v.follow? way = some (.map [(word, args)]) := by
  induction h with
  | here => exact fun _ => Value.follow?_nil _
  | item hv _ ih =>
    intro hkeys
    exact (Value.follow?_item hv).trans (ih (Value.keysApart_of_item hkeys hv))
  | field hv _ _ ih =>
    intro hkeys
    have hkey := Value.keysApart_of_field (Value.keysApart_map.1 hkeys).2 hv
    exact (Value.follow?_of_mem hkeys hv).trans (ih hkey)
  | onlyItem _ _ _ ih =>
    intro hkeys
    have hlist := Value.keysApart_of_field (Value.keysApart_map.1 hkeys).2
      (List.mem_singleton_self _)
    have hitem := Value.keysApart_of_item (i := 0) hlist rfl
    exact (Value.follow?_single _ _ _).trans ((Value.follow?_item (i := 0) rfl).trans (ih hitem))

theorem shown_eq (h : v.CallAt version inConditions shown way word args) :
    v.keysApart id = true → shown = way ∨ version.isHot = false ∧ ∃ front key x,
      front ++ [.key key, .index 0] <+: way ∧ version.reading inConditions key = .negation ∧
        v.follow? front = some (.map [(key, .list [x])]) := by
  induction h with
  | here => exact fun _ => .inl rfl
  | item hv _ ih =>
    intro hkeys
    obtain rfl | ⟨hcfn, front, key, x, hway, hreading, hfront⟩ :=
      ih (Value.keysApart_of_item hkeys hv)
    · exact .inl rfl
    · refine .inr ⟨hcfn, _ :: front, key, x, List.cons_prefix_cons.2 ⟨rfl, hway⟩, hreading, ?_⟩
      exact (Value.follow?_item hv).trans hfront
  | field hv _ _ ih =>
    intro hkeys
    obtain rfl | ⟨hcfn, front, key, x, hway, hreading, hfront⟩ :=
      ih (Value.keysApart_of_field (Value.keysApart_map.1 hkeys).2 hv)
    · exact .inl rfl
    · refine .inr ⟨hcfn, _ :: front, key, x, List.cons_prefix_cons.2 ⟨rfl, hway⟩, hreading, ?_⟩
      exact (Value.follow?_of_mem hkeys hv).trans hfront
  | @onlyItem key x _ way _ _ hreading hcfn _ _ =>
    exact fun _ => .inr ⟨hcfn, [], key, x, List.prefix_append _ way, hreading, rfl⟩

end Value.CallAt

section

variable (t : Template) (stack : StackId) (p : Parser)

inductive Refuses (word : String) (args : Value) : Cause → Prop
  | function {form s cause} :
    t.version.reading p.inConditions word = .function form → Reads t stack p args s →
    form.build ⟨t, p.inConditions, word⟩ s = .error (.bare cause) → Refuses word args cause
  | operands {vs} :
    t.version.reading p.inConditions word = .negation → t.version.isHot = false →
    args = .list vs → vs.length ≠ 1 →
    Refuses word args (.template (.call word (.shape "[condition]")))
  | unknown {name} :
    t.version.reading p.inConditions word = .negation → t.version.negated args = .text name →
    t.condition? name = none → Refuses word args (.template (.conditionName name))

def Blames (v : Value) (path : Breadcrumb) (e : Error) : Prop :=
  ∃ shown way word args cause, v.CallAt t.version p.inConditions shown way word args ∧
    Refuses t stack p word args cause ∧ e = .located (path ++ shown ++ [.key word]) cause

end

variable {t : Template} {stack : StackId} {p : Parser}

namespace Blames

variable {v w : Value} {path : Breadcrumb} {e : Error}

theorem here {word : String} {args : Value} {cause : Cause}
    (h : Refuses t stack p word args cause) :
    Blames t stack p (.map [(word, args)]) path (.located (path.key word) cause) :=
  ⟨[], [], word, args, cause, .here, h, by rw [List.append_nil]; rfl⟩

theorem atPath (h : Blames t stack p v [] e) (path : Breadcrumb) :
    Blames t stack p v path (e.atPath path) := by
  obtain ⟨shown, way, word, args, cause, hcall, hrefuses, rfl⟩ := h
  refine ⟨shown, way, word, args, cause, hcall, hrefuses, ?_⟩
  rw [Error.atPath, List.nil_append, List.append_assoc]

theorem of_part {segment : Segment} (h : Blames t stack p w (path ++ [segment]) e)
    (hpart : ∀ shown way word args, w.CallAt t.version p.inConditions shown way word args →
      ∃ way', v.CallAt t.version p.inConditions (segment :: shown) way' word args) :
    Blames t stack p v path e := by
  obtain ⟨shown, way, word, args, cause, hcall, hrefuses, rfl⟩ := h
  obtain ⟨way', hcall'⟩ := hpart shown way word args hcall
  refine ⟨segment :: shown, way', word, args, cause, hcall', hrefuses, ?_⟩
  rw [List.append_assoc path, List.singleton_append]

end Blames

/-- The mistake of an operand is found in the operand, unless it is the name of no condition. -/
def BlamesOperand (t : Template) (stack : StackId) (p : Parser) (v : Value) (e : Error) : Prop :=
  (∃ name, v = .text name ∧ t.condition? name = none ∧
    e = .bare (.template (.conditionName name))) ∨ Blames t stack p v [] e

mutual

theorem Parses.blames {p v path r after} : Parses t stack p v path r after → p.inlining = [] →
    (∀ name ∈ v.negatedNames t.version p.inConditions, t.condition? name = none) →
      ∀ e, r = .error e → Blames t stack p v path e
  | .scalar, _, _, _, h => nomatch h
  | .list hs, hp, hnames, e, h => by
    obtain ⟨i, w, hw, hblames⟩ := hs.blames hp hnames e (Run.error_of_map h)
    rw [Nat.zero_add] at hblames
    exact hblames.of_part fun _ _ _ _ hcall => ⟨_, .item hw hcall⟩
  | .map hdata hs, hp, hnames, e, h => by
    rw [Value.negatedNames_of_data hdata] at hnames
    obtain ⟨key, w, hw, hblames⟩ := hs.blames hp hnames e (Run.error_of_map h)
    refine hblames.of_part fun _ _ _ _ hcall => ⟨_, .field hw (fun x hx _ => ?_) hcall⟩
    simp [hdata key _ hx]
  | .function hreading hv, hp, hnames, e, h => by
    have hne := hreading.trans_ne (c := .negation) nofun
    rw [Value.negatedNames_of_ne hne] at hnames
    obtain h | ⟨args, hargs, h⟩ := Run.error_of_bind h
    · exact (hv.blames hp hnames e h).of_part fun _ _ _ _ hcall => ⟨_, hcall.argument hne⟩
    · obtain h | ⟨_, _, h⟩ := Run.error_of_bind h
      · obtain ⟨_, hbuild, rfl⟩ := Run.exists_of_located_error h
        obtain ⟨cause, rfl⟩ := Form.isBare_build _ _ _ _ hbuild
        exact .here (.function hreading (hv.reads args hargs) hbuild)
      · cases h
  | .negation hreading hlist hv, hp, hnames, e, h => by
    rw [Value.negatedNames_of_negation hreading, Version.negated_eq hlist] at hnames
    obtain ⟨e', he, rfl⟩ := Run.exists_of_located_error (Run.error_of_map h)
    obtain ⟨name, rfl, hd, rfl⟩ | hblames := hv.blames hp hnames e' he
    · exact .here (.unknown hreading (Version.negated_eq hlist) hd)
    · refine (hblames.atPath _).of_part fun _ _ _ _ hcall =>
        ⟨_, .field (List.mem_singleton_self _) (fun x hx hcfn => ?_) hcall⟩
      cases hx
      cases hlist hcfn
  | .negationOfItem hreading hcfn hv, hp, hnames, e, h => by
    rw [Value.negatedNames_of_negation hreading, Version.negated, hcfn] at hnames
    obtain ⟨e', he, rfl⟩ := Run.exists_of_located_error (Run.error_of_map h)
    obtain ⟨name, rfl, hd, rfl⟩ | hblames := hv.blames hp hnames e' (Run.error_of_map he)
    · exact .here (.unknown hreading (by rw [Version.negated, hcfn]; rfl) hd)
    · exact (hblames.atPath _).of_part fun _ _ _ _ hcall => ⟨_, .onlyItem hreading hcfn hcall⟩
  | .negationOfItems hreading hcfn hlength, _, _, e, h => by
    cases h
    exact .here (.operands hreading hcfn rfl hlength)
  | .unavailable hreading hv, hp, hnames, e, h => by
    have hne := hreading.trans_ne (c := .negation) nofun
    rw [Value.negatedNames_of_ne hne] at hnames
    exact (hv.blames hp hnames e (Run.error_of_map h)).of_part fun _ _ _ _ hcall =>
      ⟨_, hcall.argument hne⟩

theorem ParsesItems.blames {p vs path i r after} : ParsesItems t stack p vs path i r after →
    p.inlining = [] →
    (∀ name ∈ Value.negatedNamesOfItems t.version p.inConditions vs, t.condition? name = none) →
      ∀ e, r = .error e → ∃ j w, vs[j]? = some w ∧ Blames t stack p w (path.index (i + j)) e
  | .nil, _, _, _, h => nomatch h
  | .cons hv hs, hp, hnames, e, h => by
    obtain rfl := hv.after_eq
    obtain ⟨j, w, hw, hblames⟩ :=
      hs.blames hp (List.forall_mem_append.1 hnames).2 e (Run.error_of_map h)
    exact ⟨j + 1, w, hw, by rwa [Nat.add_right_comm, Nat.add_assoc] at hblames⟩
  | .fail hv, hp, hnames, e, h =>
    ⟨0, _, rfl, hv.blames hp (List.forall_mem_append.1 hnames).1 e (by cases h; rfl)⟩

theorem ParsesFields.blames {p vs path r after} : ParsesFields t stack p vs path r after →
    p.inlining = [] →
    (∀ name ∈ Value.negatedNamesOfFields t.version p.inConditions vs, t.condition? name = none) →
      ∀ e, r = .error e → ∃ key w, (key, w) ∈ vs ∧ Blames t stack p w (path.key key) e
  | .nil, _, _, _, h => nomatch h
  | .cons hv hs, hp, hnames, e, h => by
    obtain rfl := hv.after_eq
    obtain ⟨key, w, hw, hblames⟩ :=
      hs.blames hp (List.forall_mem_append.1 hnames).2 e (Run.error_of_map h)
    exact ⟨key, w, List.mem_cons_of_mem _ hw, hblames⟩
  | .fail hv, hp, hnames, e, h =>
    ⟨_, _, List.mem_cons_self ..,
      hv.blames hp (List.forall_mem_append.1 hnames).1 e (by cases h; rfl)⟩

theorem ParsesOperand.blames {p v r after} : ParsesOperand t stack p v r after → p.inlining = [] →
    (∀ name ∈ v.namesAsOperand t.version p.inConditions, t.condition? name = none) →
      ∀ e, r = .error e → BlamesOperand t stack p v e
  | .plain ht hv, hp, hnames, e, h =>
    .inr (hv.blames hp (List.forall_mem_append.1 hnames).2 e h)
  | .circular hn, hp, _, _, _ => by
    rw [hp] at hn
    cases hn
  | .unknown hn hd, _, _, e, h => by
    cases h
    exact .inl ⟨_, rfl, hd, rfl⟩
  | .named hn hd _, _, hnames, _, _ => by
    cases (hnames _ (List.mem_append_left _ (List.mem_singleton_self _))).symm.trans hd

end

namespace Template

/-- Parsing a value in which no condition is negated by its name fails only at a call that cannot be
made, and says where: the way to the call leads to a map with nothing but its name and arguments.
What is said of the way is all of it, unless it goes through a negation whose operand is the only
item of a list; the index of that item is left out. -/
theorem snippet_place (t : Template) (inConditions : Bool) (stack : StackId) (v : Value)
    (hkeys : v.keysApart id = true)
    (hnames : ∀ name ∈ v.negatedNames t.version inConditions, t.condition? name = none)
    (e : Error) (h : t.snippet ⟨inConditions, []⟩ stack v = .error e) :
    ∃ shown way word args cause, v.CallAt t.version inConditions shown way word args ∧
      Refuses t stack ⟨inConditions, []⟩ word args cause ∧
      e = .located (shown ++ [.key word]) cause ∧
      v.follow? way = some (.map [(word, args)]) ∧
      v.follow? (way ++ [.key word]) = some args ∧
      (shown = way ∨ t.version.isHot = false ∧ ∃ front key x,
        front ++ [.key key, .index 0] <+: way ∧
          t.version.reading inConditions key = .negation ∧
          v.follow? front = some (.map [(key, .list [x])])) := by
  obtain ⟨shown, way, word, args, cause, hcall, hrefuses, he⟩ :=
    (parse_run_iff.1 (Prod.ext h rfl)).blames rfl hnames e rfl
  have hway := hcall.follow? hkeys
  refine ⟨shown, way, word, args, cause, hcall, hrefuses, he, hway, ?_, hcall.shown_eq hkeys⟩
  rw [Value.follow?_append, hway]
  exact Value.follow?_single _ _ []

theorem snippet_place_of_negation :
    let v : Value := .map [("names", .list [.text "x", .map [("not", .map [("or",
      .list [.bool true])])]])]
    let front : Breadcrumb := [.key "names", .index 1, .key "not"]
    ∃ t, Template.ofValue (.map [("heat_template_version", .text "2016-10-14")]) = .ok t ∧
      v.keysApart id = true ∧
      (∀ name ∈ v.negatedNames t.version false, t.condition? name = none) ∧
      t.snippet .ordinary ⟨"s"⟩ v = .error (.located (front ++ [.key "or"])
        (.template (.call "or" (.shape "[condition_1, condition_2, ...]")))) ∧
      ∃ args, v.follow? front = some (.map [("or", args)]) ∧
        v.follow? (front ++ [.key "or"]) = some args := by
  intro v front
  have hplace {t : Template} {cause : Cause} (hkeys : v.keysApart id = true)
      (hnames : ∀ name ∈ v.negatedNames t.version false, t.condition? name = none)
      (hhot : t.version.isHot = true)
      (h : t.snippet .ordinary ⟨"s"⟩ v = .error (.located (front ++ [.key "or"]) cause)) :
      t.snippet .ordinary ⟨"s"⟩ v = .error (.located (front ++ [.key "or"]) cause) ∧ ∃ args,
        v.follow? front = some (.map [("or", args)]) ∧
          v.follow? (front ++ [.key "or"]) = some args := by
    obtain ⟨_, way, word, args, _, -, -, he, hway, hargs, rfl | ⟨hcfn, -⟩⟩ :=
      snippet_place t false ⟨"s"⟩ v hkeys hnames _ h
    · injection he with hpath
      obtain ⟨rfl, hword⟩ := List.append_inj' hpath rfl
      cases hword
      exact ⟨h, args, hway, hargs⟩
    · cases hhot.symm.trans hcfn
  exact ⟨_, rfl, rfl, nofun, hplace rfl nofun rfl rfl⟩

/-- The breadcrumb of an operand that is the only item of a list leads nowhere. -/
theorem snippet_misplaced :
    let v : Value := .map [("Fn::Not", .list [.map [("Condition", .text "missing")]])]
    let place : Breadcrumb := [.key "Fn::Not", .key "Condition"]
    ∃ t, Template.ofValue (.map [("AWSTemplateFormatVersion", .text "2010-09-09")]) = .ok t ∧
      (∀ name ∈ v.negatedNames t.version true, t.condition? name = none) ∧
      t.snippet .forConditions ⟨"s"⟩ v =
        .error (.located place (.template (.condition "missing"))) ∧
      v.follow? place = none ∧
      v.follow? [.key "Fn::Not", .index 0, .key "Condition"] = some (.text "missing") :=
  ⟨_, rfl, nofun, rfl, rfl, rfl⟩

end Template

end Orchestration
