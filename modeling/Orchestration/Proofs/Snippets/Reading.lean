import Orchestration.Proofs.Snippets.Outcomes

namespace Orchestration

variable (t : Template) (stack : StackId)

mutual

inductive Reads : Parser → Value → Snippet → Prop
  | scalar {p s} : Reads p (.scalar s) (.scalar s)
  | list {p vs ss} : ReadsItems p vs ss → Reads p (.list vs) (.list ss)
  | map {p vs ss} :
    (∀ name args, vs = [(name, args)] → t.version.reading p.inConditions name = .data) →
    ReadsFields p vs ss → Reads p (.map vs) (.map ss)
  | function {p name v args form fn args'} :
    t.version.reading p.inConditions name = .function form → Reads p v args →
    form.build ⟨t, p.inConditions, name⟩ args = .ok (fn, args') →
    Reads p (.map [(name, v)]) (.call ⟨stack, name, fn⟩ args')
  | negation {p name v s} :
    t.version.reading p.inConditions name = .negation →
    (t.version.isHot = false → v.list? = none) → ReadsOperand p v s →
    Reads p (.map [(name, v)]) (.call ⟨stack, name, .negation⟩ s)
  | negationOfItem {p name v s} :
    t.version.reading p.inConditions name = .negation → t.version.isHot = false →
    ReadsOperand p v s →
    Reads p (.map [(name, .list [v])]) (.call ⟨stack, name, .negation⟩ (.list [s]))
  | unavailable {p name v args reason} :
    t.version.reading p.inConditions name = .unavailable reason → Reads p v args →
    Reads p (.map [(name, v)]) (.call ⟨stack, name, .unavailable t.version reason⟩ args)

inductive ReadsItems : Parser → List Value → List Snippet → Prop
  | nil {p} : ReadsItems p [] []
  | cons {p v s vs ss} : Reads p v s → ReadsItems p vs ss → ReadsItems p (v :: vs) (s :: ss)

inductive ReadsFields : Parser → List (String × Value) → List (String × Snippet) → Prop
  | nil {p} : ReadsFields p [] []
  | cons {p k v s vs ss} :
    Reads p v s → ReadsFields p vs ss → ReadsFields p ((k, v) :: vs) ((k, s) :: ss)

inductive ReadsOperand : Parser → Value → Snippet → Prop
  | plain {p v s} : v.text? = none → Reads p v s → ReadsOperand p v s
  | named {p name definition s} :
    name ∉ p.inlining → t.condition? name = some definition →
    ReadsOperand ⟨true, name :: p.inlining⟩ definition s → ReadsOperand p (.text name) s

end

variable {t stack}

mutual

theorem Parses.reads {p v path r after} : Parses t stack p v path r after →
    ∀ s, r = .ok s → Reads t stack p v s
  | .scalar, _, h => by
    cases h
    exact .scalar
  | .list hs, _, h => by
    obtain ⟨_, hr, rfl⟩ := Run.exists_of_map_ok h
    exact .list (hs.reads _ hr)
  | .map hdata hs, _, h => by
    obtain ⟨_, hr, rfl⟩ := Run.exists_of_map_ok h
    exact .map hdata (hs.reads _ hr)
  | .function hreading hv, _, h => by
    obtain ⟨args, hargs, h⟩ := Run.exists_of_bind_ok h
    obtain ⟨_, hbuilt, h⟩ := Run.exists_of_bind_ok h
    cases h
    exact .function hreading (hv.reads args hargs) (Run.located_eq_ok_iff.1 hbuilt)
  | .negation hreading hlist hv, _, h => by
    obtain ⟨_, hr, rfl⟩ := Run.exists_of_map_ok h
    exact .negation hreading hlist (hv.reads _ (Run.located_eq_ok_iff.1 hr))
  | .negationOfItem hreading hcfn hv, _, h => by
    obtain ⟨_, hlist, rfl⟩ := Run.exists_of_map_ok h
    obtain ⟨_, hr, rfl⟩ := Run.exists_of_map_ok (Run.located_eq_ok_iff.1 hlist)
    exact .negationOfItem hreading hcfn (hv.reads _ hr)
  | .negationOfItems _ _ _, _, h => nomatch h
  | .unavailable hreading hv, _, h => by
    obtain ⟨_, hr, rfl⟩ := Run.exists_of_map_ok h
    exact .unavailable hreading (hv.reads _ hr)

theorem ParsesItems.reads {p vs path i r after} : ParsesItems t stack p vs path i r after →
    ∀ ss, r = .ok ss → ReadsItems t stack p vs ss
  | .nil, _, h => by
    cases h
    exact .nil
  | .cons hv hs, _, h => by
    obtain ⟨_, hr, rfl⟩ := Run.exists_of_map_ok h
    exact .cons (hv.reads _ rfl) (hv.after_eq ▸ hs.reads _ hr)
  | .fail _, _, h => nomatch h

theorem ParsesFields.reads {p vs path r after} : ParsesFields t stack p vs path r after →
    ∀ ss, r = .ok ss → ReadsFields t stack p vs ss
  | .nil, _, h => by
    cases h
    exact .nil
  | .cons hv hs, _, h => by
    obtain ⟨_, hr, rfl⟩ := Run.exists_of_map_ok h
    exact .cons (hv.reads _ rfl) (hv.after_eq ▸ hs.reads _ hr)
  | .fail _, _, h => nomatch h

theorem ParsesOperand.reads {p v r after} : ParsesOperand t stack p v r after →
    ∀ s, r = .ok s → ReadsOperand t stack p v s
  | .plain ht hv, _, h => .plain ht (hv.reads _ h)
  | .circular _, _, h => nomatch h
  | .unknown _ _, _, h => nomatch h
  | .named hn hd hv, _, h => .named hn hd (hv.reads _ h)

end

mutual

theorem Reads.parses {p v s} : Reads t stack p v s → ∀ path, Parses t stack p v path (.ok s) p
  | .scalar, _ => .scalar
  | .list hs, path => .list (hs.parses path 0)
  | .map hdata hs, path => .map hdata (hs.parses path)
  | .function hreading hv hbuilt, path => by
    have h : Parses t stack p _ path _ p := .function hreading (hv.parses _)
    rwa [Run.ok_bind rfl, hbuilt] at h
  | .negation hreading hlist hv, _ => .negation hreading hlist hv.parses
  | .negationOfItem hreading hcfn hv, _ => .negationOfItem hreading hcfn hv.parses
  | .unavailable hreading hv, path => .unavailable hreading (hv.parses _)

theorem ReadsItems.parses {p vs ss} : ReadsItems t stack p vs ss →
    ∀ path i, ParsesItems t stack p vs path i (.ok ss) p
  | .nil, _, _ => .nil
  | .cons hv hs, path, i => .cons (hv.parses _) (hs.parses path (i + 1))

theorem ReadsFields.parses {p vs ss} : ReadsFields t stack p vs ss →
    ∀ path, ParsesFields t stack p vs path (.ok ss) p
  | .nil, _ => .nil
  | .cons hv hs, path => .cons (hv.parses _) (hs.parses path)

theorem ReadsOperand.parses {p v s} : ReadsOperand t stack p v s →
    ParsesOperand t stack p v (.ok s) p
  | .plain ht hv => .plain ht (hv.parses [])
  | .named hn hd hv => .named hn hd hv.parses

end

namespace Template

variable {p after : Parser} {v : Value} {s : Snippet}

theorem snippet_eq_ok_iff : t.snippet p stack v = .ok s ↔ Reads t stack p v s := by
  constructor
  · intro h
    exact (parse_run_iff.1 (Prod.ext h rfl)).reads s rfl
  · intro h
    exact congrArg Prod.fst (parse_run_iff.2 (h.parses []))

theorem reads_of_inlineCondition {name : String}
    (h : (t.inlineCondition stack name).run p = (.ok s, after)) :
    ReadsOperand t stack p (.text name) s :=
  (inlineCondition_run_iff.1 h).reads s rfl

end Template

end Orchestration
