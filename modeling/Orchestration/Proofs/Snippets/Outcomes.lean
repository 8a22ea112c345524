import Orchestration.Proofs.Conditions.Truth
import Orchestration.Proofs.Run
import Orchestration.Snippet.Parser

/-!
What parses come to, whether they find a snippet or fail, with the parser before and after. No
parse is given up here: the definition of a condition is read as long as its name is not already
being replaced. Main statement: parsers come to exactly this.
-/

namespace Orchestration

variable (t : Template) (stack : StackId)

mutual

inductive Parses : Parser → Value → Breadcrumb → Result Snippet → Parser → Prop
  | scalar {p s path} : Parses p (.scalar s) path (.ok (.scalar s)) p
  | list {p vs path r after} :
    ParsesItems p vs path 0 r after → Parses p (.list vs) path (.list <$> r) after
  | map {p vs path r after} :
    (∀ name args, vs = [(name, args)] → t.version.reading p.inConditions name = .data) →
    ParsesFields p vs path r after → Parses p (.map vs) path (.map <$> r) after
  | function {p name v path form r after} :
    t.version.reading p.inConditions name = .function form → Parses p v (path.key name) r after →
    Parses p (.map [(name, v)]) path
      (do
        let (fn, args) ← located (path.key name) (form.build ⟨t, p.inConditions, name⟩ (← r))
        return .call ⟨stack, name, fn⟩ args) after
  | negation {p name v path r after} :
    t.version.reading p.inConditions name = .negation →
    (t.version.isHot = false → v.list? = none) → ParsesOperand p v r after →
    Parses p (.map [(name, v)]) path
      ((.call ⟨stack, name, .negation⟩ ·) <$> located (path.key name) r) after
  | negationOfItem {p name v path r after} :
    t.version.reading p.inConditions name = .negation → t.version.isHot = false →
    ParsesOperand p v r after →
    Parses p (.map [(name, .list [v])]) path
      ((.call ⟨stack, name, .negation⟩ ·) <$> located (path.key name) ((.list [·]) <$> r)) after
  | negationOfItems {p name vs path} :
    t.version.reading p.inConditions name = .negation → t.version.isHot = false →
    vs.length ≠ 1 →
    Parses p (.map [(name, .list vs)]) path
      (located (path.key name) (fault (.call name (.shape "[condition]")))) p
  | unavailable {p name v path reason r after} :
    t.version.reading p.inConditions name = .unavailable reason →
    Parses p v (path.key name) r after →
    Parses p (.map [(name, v)]) path
      ((.call ⟨stack, name, .unavailable t.version reason⟩ ·) <$> r) after

inductive ParsesItems :
    Parser → List Value → Breadcrumb → Nat → Result (List Snippet) → Parser → Prop
  | nil {p path i} : ParsesItems p [] path i (.ok []) p
  | cons {p v vs path i s mid r after} :
    Parses p v (path.index i) (.ok s) mid → ParsesItems mid vs path (i + 1) r after →
    ParsesItems p (v :: vs) path i ((s :: ·) <$> r) after
  | fail {p v vs path i e after} :
    Parses p v (path.index i) (.error e) after →
    ParsesItems p (v :: vs) path i (.error e) after

inductive ParsesFields :
    Parser → List (String × Value) → Breadcrumb → Result (Fields Snippet) → Parser → Prop
  | nil {p path} : ParsesFields p [] path (.ok []) p
  | cons {p k v vs path s mid r after} :
    Parses p v (path.key k) (.ok s) mid → ParsesFields mid vs path r after →
    ParsesFields p ((k, v) :: vs) path (((k, s) :: ·) <$> r) after
  | fail {p k v vs path e after} :
    Parses p v (path.key k) (.error e) after →
    ParsesFields p ((k, v) :: vs) path (.error e) after

/-- The operand of a negation is parsed from no place on. A text is the name of a condition, in
place of which its definition is parsed, unless that is what the parser is at already. -/
inductive ParsesOperand : Parser → Value → Result Snippet → Parser → Prop
  | plain {p v r after} :
    v.text? = none → Parses p v [] r after → ParsesOperand p v r after
  | circular {p name} :
    name ∈ p.inlining →
    ParsesOperand p (.text name) (.error (.bare (.circularCondition name))) p
  | unknown {p name} :
    name ∉ p.inlining → t.condition? name = none →
    ParsesOperand p (.text name) (fault (.conditionName name)) p
  | named {p name definition r mid} :
    name ∉ p.inlining → t.condition? name = some definition →
    ParsesOperand ⟨true, name :: p.inlining⟩ definition r mid →
    ParsesOperand p (.text name) r ⟨p.inConditions, mid.inlining.tail⟩

end

variable {t stack}

mutual

theorem Parses.after_eq {p v path r after} : Parses t stack p v path r after → after = p
  | .scalar => rfl
  | .list h => h.after_eq
  | .map _ h => h.after_eq
  | .function _ h => h.after_eq
  | .negation _ _ h => h.after_eq
  | .negationOfItem _ _ h => h.after_eq
  | .negationOfItems _ _ _ => rfl
  | .unavailable _ h => h.after_eq

theorem ParsesItems.after_eq {p vs path i r after} :
    ParsesItems t stack p vs path i r after → after = p
  | .nil => rfl
  | .cons h hs => hs.after_eq.trans h.after_eq
  | .fail h => h.after_eq

theorem ParsesFields.after_eq {p vs path r after} :
    ParsesFields t stack p vs path r after → after = p
  | .nil => rfl
  | .cons h hs => hs.after_eq.trans h.after_eq
  | .fail h => h.after_eq

theorem ParsesOperand.after_eq {p v r after} : ParsesOperand t stack p v r after → after = p
  | .plain _ h => h.after_eq
  | .circular _ => rfl
  | .unknown _ _ => rfl
  | .named _ _ h => by
    rw [h.after_eq]
    rfl

end

section

variable {p : Parser}

theorem exists_parsesOperand_of_parses (hi : ∀ name, ∃ r, ParsesOperand t stack p (.text name) r p)
    {v : Value} (h : ∃ r, Parses t stack p v [] r p) : ∃ r, ParsesOperand t stack p v r p := by
  by_cases hv : ∃ name, v = .text name
  · obtain ⟨name, rfl⟩ := hv
    exact hi name
  · obtain ⟨r, h⟩ := h
    refine ⟨r, .plain ?_ h⟩
    cases v with
    | scalar s =>
      cases s with
      | text name => exact absurd ⟨name, rfl⟩ hv
      | _ => rfl
    | _ => rfl

theorem exists_parses_entry {name : String} {v : Value} {path : Breadcrumb}
    (hargs : ∃ r, Parses t stack p v (path.key name) r p)
    (hoperand : ∃ r, ParsesOperand t stack p v r p)
    (hitem : ∀ x, v = .list [x] → ∃ r, ParsesOperand t stack p x r p)
    (hdata : ∃ r, ParsesFields t stack p [(name, v)] path r p) :
    ∃ r, Parses t stack p (.map [(name, v)]) path r p := by
  obtain ⟨args, hargs⟩ := hargs
  cases hreading : t.version.reading p.inConditions name with
  | data =>
    obtain ⟨r, h⟩ := hdata
    refine ⟨_, .map ?_ h⟩
    rintro _ _ ⟨⟩
    exact hreading
  | function form => exact ⟨_, .function hreading hargs⟩
  | unavailable reason => exact ⟨_, .unavailable hreading hargs⟩
  | negation =>
    by_cases hlist : t.version.isHot = false → v.list? = none
    · obtain ⟨r, h⟩ := hoperand
      exact ⟨_, .negation hreading hlist h⟩
    · obtain ⟨hcfn, hlist⟩ := Classical.not_imp.1 hlist
      cases v with
      | list vs =>
        by_cases hlength : vs.length = 1
        · obtain ⟨x, rfl⟩ := List.length_eq_one_iff.1 hlength
          obtain ⟨r, h⟩ := hitem x rfl
          exact ⟨_, .negationOfItem hreading hcfn h⟩
        · exact ⟨_, .negationOfItems hreading hcfn hlength⟩
      | _ => exact absurd rfl hlist

mutual

theorem exists_parses (hi : ∀ name, ∃ r, ParsesOperand t stack p (.text name) r p) :
    ∀ (v : Value) (path : Breadcrumb), ∃ r, Parses t stack p v path r p
  | .scalar _, _ => ⟨_, .scalar⟩
  | .list vs, path => by
    obtain ⟨r, h⟩ := exists_parsesItems hi vs path 0
    exact ⟨_, .list h⟩
  | .map [(name, v)], path =>
    exists_parses_entry (exists_parses hi v (path.key name))
      (exists_parsesOperand_of_parses hi (exists_parses hi v []))
      (fun x hx => by
        cases v with
        | list vs =>
          cases hx
          exact exists_parsesOperand_of_parses hi (exists_parses hi x [])
        | _ => cases hx)
      (exists_parsesFields hi [(name, v)] path)
  | .map [], path => ⟨_, .map nofun .nil⟩
  | .map (e :: e' :: vs), path => by
    obtain ⟨r, h⟩ := exists_parsesFields hi (e :: e' :: vs) path
    exact ⟨_, .map nofun h⟩

theorem exists_parsesItems (hi : ∀ name, ∃ r, ParsesOperand t stack p (.text name) r p) :
    ∀ (vs : List Value) (path : Breadcrumb) (i : Nat), ∃ r, ParsesItems t stack p vs path i r p
  | [], _, _ => ⟨_, .nil⟩
  | v :: vs, path, i => by
    obtain ⟨_ | s, h⟩ := exists_parses hi v (path.index i)
    · exact ⟨_, .fail h⟩
    · obtain ⟨r, hs⟩ := exists_parsesItems hi vs path (i + 1)
      exact ⟨_, .cons h hs⟩

theorem exists_parsesFields (hi : ∀ name, ∃ r, ParsesOperand t stack p (.text name) r p) :
    ∀ (vs : List (String × Value)) (path : Breadcrumb), ∃ r, ParsesFields t stack p vs path r p
  | [], _ => ⟨_, .nil⟩
  | (k, v) :: vs, path => by
    obtain ⟨_ | s, h⟩ := exists_parses hi v (path.key k)
    · exact ⟨_, .fail h⟩
    · obtain ⟨r, hs⟩ := exists_parsesFields hi vs path
      exact ⟨_, .cons h hs⟩

end

end

theorem mem_keys_of_condition? {name : String} {definition : Value}
    (h : t.condition? name = some definition) : name ∈ (t.entries .conditions).keys := by
  rw [← Fields.contains_iff, Fields.contains, show Fields.get? _ _ = _ from h]
  rfl

/-- Replacing a name comes to an end: on the way to each definition there is one more name that
is being replaced. -/
theorem exists_parsesOperand_text (name : String) (p : Parser) :
    ∃ r, ParsesOperand t stack p (.text name) r p := by
  generalize hcard : ((t.entries .conditions).keys.toFinset \ p.inlining.toFinset).card = n
  induction n using Nat.strongRecOn generalizing name p with
  | ind n ih =>
    by_cases hn : name ∈ p.inlining
    · exact ⟨_, .circular hn⟩
    cases hd : t.condition? name with
    | none => exact ⟨_, .unknown hn hd⟩
    | some definition =>
      have hlt := card_remaining_lt (mem_keys_of_condition? hd) hn
      -- one condition less is left to be replaced in the definition
      have hi := fun other => ih _ (hcard ▸ hlt) other ⟨true, name :: p.inlining⟩ rfl
      obtain ⟨r, h⟩ := exists_parsesOperand_of_parses hi (exists_parses hi definition [])
      exact ⟨r, .named hn hd h⟩

namespace Parsing

variable {inline : String → Parsing Snippet} {p after : Parser}

def Inlines (t : Template) (stack : StackId) (p : Parser) (inline : String → Parsing Snippet) :
    Prop :=
  ∀ name r after, ParsesOperand t stack p (.text name) r after → (inline name).run p = (r, after)

theorem condition_run (hi : Inlines t stack p inline) {v : Value}
    (hv : ∀ r after, Parses t stack p v [] r after →
      (parse t stack inline v []).run p = (r, after))
    {r : Result Snippet} (h : ParsesOperand t stack p v r after) :
    (Operand.condition inline ⟨v, parse t stack inline v []⟩).run p = (r, after) := by
  unfold Operand.condition
  split
  · next name hw =>
    cases hw
    exact hi name r after h
  · next hw =>
    cases h with
    | plain _ h => exact hv r after h
    | circular => exact absurd rfl (hw _)
    | unknown => exact absurd rfl (hw _)
    | named => exact absurd rfl (hw _)

theorem negation_run {o : Operand} {items : Option (List Operand)} {c : Bool} {name : String}
    {r : Result Snippet} (hitems : t.version.isHot = false → items = none)
    (h : (o.condition inline).run p = (r, after)) :
    (negation ⟨t, c, name⟩ inline o items).run p = (r, after) := by
  unfold negation
  split
  · next hv => cases hitems (by rw [hv]; rfl)
  · next hv => cases hitems (by rw [hv]; rfl)
  · exact h

theorem negation_run_of_item {o whole : Operand} {c : Bool} {name : String} {r : Result Snippet}
    (hcfn : t.version.isHot = false) (h : (o.condition inline).run p = (r, after)) :
    (negation ⟨t, c, name⟩ inline whole (some [o])).run p =
      ((.list [·]) <$> r, after) := by
  cases hv : t.version with
  | hot v => simp [hv, Version.isHot] at hcfn
  | cfn v =>
    simp only [negation, hv]
    rw [bind_pure_comp, Run.map_run, h]

theorem negation_run_of_items {whole : Operand} {os : List Operand} {c : Bool} {name : String}
    (hcfn : t.version.isHot = false) (hlength : os.length ≠ 1) :
    (negation ⟨t, c, name⟩ inline whole (some os)).run p =
      (fault (.call name (.shape "[condition]")), p) := by
  cases hv : t.version with
  | hot v => simp [hv, Version.isHot] at hcfn
  | cfn v =>
    unfold negation
    split
    · next h _ =>
      cases h
      exact absurd rfl hlength
    · rfl
    · next h => exact absurd hv (h _ v rfl)

theorem length_operands (vs : List Value) : (operands t stack inline vs).length = vs.length := by
  induction vs with
  | nil => rfl
  | cons v vs ih => simp [operands, ih]

theorem operands?_eq_none {v : Value} (h : v.list? = none) : operands? t stack inline v = none := by
  cases v with
  | list items => cases h
  | _ => rfl

theorem located_run {α : Type} {x : Parsing α} {r : Result α} (path : Breadcrumb)
    (h : x.run p = (r, after)) :
    (located path x).run p = (Orchestration.located path r, after) :=
  congrArg (fun outcome : Result α × Parser => (Orchestration.located path outcome.1, outcome.2)) h

theorem parseCall_run_none {vs : List (String × Value)} (path : Breadcrumb)
    (h : ∀ name args, vs = [(name, args)] → t.version.reading p.inConditions name = .data) :
    (parseCall t stack inline vs path).run p = (.ok none, p) := by
  unfold parseCall
  split
  · next name args =>
    refine (Run.bind_ok (a := p) rfl).trans ?_
    simp only [h name args rfl]
    rfl
  · rfl

section

variable {name : String} {v : Value} {path : Breadcrumb} {r : Result Snippet}

theorem function_run {form : Form} (hreading : t.version.reading p.inConditions name = .function form)
    (h : (parse t stack inline v (path.key name)).run p = (r, after)) :
    (parseCall t stack inline [(name, v)] path).run p =
      (some <$> do
        let (fn, args) ← Orchestration.located (path.key name)
          (form.build ⟨t, p.inConditions, name⟩ (← r))
        return .call ⟨stack, name, fn⟩ args, after) := by
  unfold parseCall
  refine (Run.bind_ok (a := p) rfl).trans ?_
  simp only [hreading]
  cases r with
  | error e => exact Run.bind_error h
  | ok args =>
    refine (Run.bind_ok h).trans ?_
    have hbuild := located_run (p := after) (path.key name)
      (rfl : (lift (form.build ⟨t, p.inConditions, name⟩ args)).run after = _)
    cases hmade : Orchestration.located (path.key name)
        (form.build ⟨t, p.inConditions, name⟩ args) with
    | error e =>
      refine (Run.bind_error (hbuild.trans (congrArg (·, after) hmade))).trans ?_
      change _ = (some <$> (Orchestration.located _ _ >>= _), _)
      rw [hmade]
      rfl
    | ok made =>
      refine (Run.bind_ok (hbuild.trans (congrArg (·, after) hmade))).trans ?_
      change _ = (some <$> (Orchestration.located _ _ >>= _), _)
      rw [hmade]
      rfl

theorem negation_call_run (hreading : t.version.reading p.inConditions name = .negation)
    (h : (negation ⟨t, p.inConditions, name⟩ inline ⟨v, parse t stack inline v []⟩
      (operands? t stack inline v)).run p = (r, after)) :
    (parseCall t stack inline [(name, v)] path).run p =
      (some <$> (.call ⟨stack, name, .negation⟩ ·) <$> Orchestration.located (path.key name) r,
        after) := by
  unfold parseCall
  refine (Run.bind_ok (a := p) rfl).trans ?_
  simp only [hreading]
  rw [bind_pure_comp, Run.map_run, located_run _ h, ← comp_map]
  rfl

theorem unavailable_run {reason : Unavailability}
    (hreading : t.version.reading p.inConditions name = .unavailable reason)
    (h : (parse t stack inline v (path.key name)).run p = (r, after)) :
    (parseCall t stack inline [(name, v)] path).run p =
      (some <$> (.call ⟨stack, name, .unavailable t.version reason⟩ ·) <$> r, after) := by
  unfold parseCall
  refine (Run.bind_ok (a := p) rfl).trans ?_
  simp only [hreading]
  rw [bind_pure_comp, Run.map_run, h, ← comp_map]
  rfl

theorem parse_run_of_call {vs : List (String × Value)}
    (h : (parseCall t stack inline vs path).run p = (some <$> r, after)) :
    (parse t stack inline (.map vs) path).run p = (r, after) := by
  unfold parse
  cases r with
  | error e => exact Run.bind_error h
  | ok s => exact Run.bind_ok h

end

mutual

theorem parse_run (hi : Inlines t stack p inline) : ∀ (v : Value) (path : Breadcrumb)
    (r : Result Snippet) (after : Parser), Parses t stack p v path r after →
      (parse t stack inline v path).run p = (r, after)
  | .scalar _, _, _, _, h => by
    cases h
    rfl
  | .list vs, path, _, _, h => by
    cases h with
    | list h =>
      unfold parse
      rw [Run.map_run, parseItems_run hi vs path 0 _ _ h]
  | .map vs, path, r, after, h => by
    cases h with
    | map hdata h =>
      unfold parse
      refine (Run.bind_ok (parseCall_run_none path hdata)).trans ?_
      dsimp only
      rw [Run.map_run, parseFields_run hi vs path _ _ h]
    | function hreading h =>
      exact parse_run_of_call (function_run hreading (parse_run hi _ _ _ _ h))
    | negation hreading hlist h =>
      have hrun := condition_run hi (fun r after => parse_run hi _ [] r after) h
      exact parse_run_of_call (negation_call_run hreading
        (negation_run (fun hcfn => operands?_eq_none (hlist hcfn)) hrun))
    | negationOfItem hreading hcfn h =>
      have hrun := condition_run hi (fun r after => parse_run hi _ [] r after) h
      exact parse_run_of_call (negation_call_run (v := .list [_]) hreading
        (negation_run_of_item hcfn hrun))
    | negationOfItems hreading hcfn hlength =>
      exact parse_run_of_call (negation_call_run (v := .list _) hreading
        (negation_run_of_items hcfn ((length_operands _).trans_ne hlength)))
    | unavailable hreading h =>
      exact parse_run_of_call (unavailable_run hreading (parse_run hi _ _ _ _ h))

theorem parseItems_run (hi : Inlines t stack p inline) : ∀ (vs : List Value) (path : Breadcrumb)
    (i : Nat) (r : Result (List Snippet)) (after : Parser),
      ParsesItems t stack p vs path i r after →
        (parseItems t stack inline vs path i).run p = (r, after)
  | [], _, _, _, _, h => by
    cases h
    rfl
  | v :: vs, path, i, _, _, h => by
    unfold parseItems
    cases h with
    | cons h hs =>
      obtain rfl := h.after_eq.symm
      refine (Run.bind_ok (parse_run hi v _ _ _ h)).trans ?_
      rw [bind_pure_comp, Run.map_run, parseItems_run hi vs path (i + 1) _ _ hs]
    | fail h => exact Run.bind_error (parse_run hi v _ _ _ h)

theorem parseFields_run (hi : Inlines t stack p inline) : ∀ (vs : List (String × Value))
    (path : Breadcrumb) (r : Result (Fields Snippet)) (after : Parser),
      ParsesFields t stack p vs path r after →
        (parseFields t stack inline vs path).run p = (r, after)
  | [], _, _, _, h => by
    cases h
    rfl
  | (_, v) :: vs, path, _, _, h => by
    unfold parseFields
    cases h with
    | cons h hs =>
      obtain rfl := h.after_eq.symm
      refine (Run.bind_ok (parse_run hi v _ _ _ h)).trans ?_
      rw [bind_pure_comp, Run.map_run, parseFields_run hi vs path _ _ hs]
    | fail h => exact Run.bind_error (parse_run hi v _ _ _ h)

end

theorem within_run {α : Type} {enter leave : Parser → Parser} {x : Parsing α} {r : Result α}
    (h : x.run (enter p) = (r, after)) : (within enter leave x).run p = (r, leave after) :=
  congrArg (fun outcome : Result α × Parser => (outcome.1, leave outcome.2)) h

theorem inlineCondition_run_of_mem {name : String} (fuel : Nat) (hn : name ∈ p.inlining) :
    (inlineCondition t stack fuel name).run p = (.error (.bare (.circularCondition name)), p) := by
  unfold inlineCondition
  refine (Run.bind_ok (a := p) rfl).trans ?_
  simp only [List.contains_iff_mem, hn, ↓reduceIte]
  rfl

theorem inlineCondition_run_of_none {name : String} (fuel : Nat) (hn : name ∉ p.inlining)
    (hd : t.condition? name = none) :
    (inlineCondition t stack fuel name).run p = (fault (.conditionName name), p) := by
  unfold inlineCondition
  refine (Run.bind_ok (a := p) rfl).trans ?_
  simp only [List.contains_iff_mem, hn, ↓reduceIte, hd]
  rfl

theorem inlineCondition_run {fuel : Nat}
    (hf : ((t.entries .conditions).keys.toFinset \ p.inlining.toFinset).card ≤ fuel) :
    Inlines t stack p (inlineCondition t stack fuel) := by
  induction fuel generalizing p with
  | zero =>
    intro name r after h
    cases h with
    | plain hn _ => cases hn
    | circular hn => exact inlineCondition_run_of_mem 0 hn
    | unknown hn hd => exact inlineCondition_run_of_none 0 hn hd
    | named hn hd h =>
      have := card_remaining_lt (mem_keys_of_condition? hd) hn
      omega
  | succ fuel ih =>
    intro name r after h
    cases h with
    | plain hn _ => cases hn
    | circular hn => exact inlineCondition_run_of_mem _ hn
    | unknown hn hd => exact inlineCondition_run_of_none _ hn hd
    | named hn hd h =>
      have hlt := card_remaining_lt (mem_keys_of_condition? hd) hn
      have ih := @ih ⟨true, name :: p.inlining⟩ (by dsimp only; omega)
      unfold inlineCondition
      refine (Run.bind_ok (a := p) rfl).trans ?_
      simp only [hd, List.contains_iff_mem, hn, ↓reduceIte]
      refine (Run.bind_ok (a := p) rfl).trans (within_run ?_)
      split
      · next other => exact ih other _ _ h
      · next other =>
        cases h with
        | plain _ h => exact parse_run ih _ [] _ _ h
        | _ => exact absurd rfl (other _)

end Parsing

namespace Template

theorem card_remaining_le (t : Template) (under : List String) :
    ((t.entries .conditions).keys.toFinset \ under.toFinset).card ≤
      (t.entries .conditions).length :=
  calc ((t.entries .conditions).keys.toFinset \ under.toFinset).card
    _ ≤ (t.entries .conditions).keys.toFinset.card := Finset.card_le_card Finset.sdiff_subset
    _ ≤ (t.entries .conditions).keys.length := List.toFinset_card_le _
    _ = (t.entries .conditions).length := List.length_map _

variable {p after : Parser} {v : Value} {path : Breadcrumb} {name : String} {r : Result Snippet}

theorem inlines (p : Parser) : Parsing.Inlines t stack p (t.inlineCondition stack) :=
  Parsing.inlineCondition_run (t.card_remaining_le p.inlining)

/-- The parser that keeps a state comes to just this. -/
theorem parse_run_iff :
    (Parsing.parse t stack (t.inlineCondition stack) v path).run p = (r, after) ↔
      Parses t stack p v path r after := by
  refine ⟨fun h => ?_, Parsing.parse_run (inlines p) v path r after⟩
  obtain ⟨r', h'⟩ := exists_parses (exists_parsesOperand_text · p) v path
  cases (Parsing.parse_run (inlines p) v path r' p h').symm.trans h
  exact h'

theorem inlineCondition_run_iff :
    (t.inlineCondition stack name).run p = (r, after) ↔
      ParsesOperand t stack p (.text name) r after := by
  refine ⟨fun h => ?_, inlines p name r after⟩
  obtain ⟨r', h'⟩ := exists_parsesOperand_text name p
  cases (inlines p name r' p h').symm.trans h
  exact h'

end Template

end Orchestration
