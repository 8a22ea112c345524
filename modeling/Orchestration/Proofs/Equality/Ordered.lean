import Orchestration.Proofs.Equality.Functions
import Orchestration.Proofs.Values.Loops

namespace Orchestration

namespace Evaluation

namespace Site

variable (site : Site)

def loopTemplate (args : Arguments) : Inquiry Value :=
  match args.field? "template" with
  | some o => o.value
  | none => pure .null

def permutes (args : Arguments) : Inquiry Bool :=
  match args.field? "permutations" with
  | none => pure true
  | some o => do
    match ← o.value with
    | .bool b => pure b
    | _ => site.refuse .permutations

def loops (args : Arguments) : Inquiry (Fields Value × Value × Bool) := do
  let some loops := args.field? "for_each" | site.refuseShape (.loop false)
  let .map loops ← loops.value | site.refuse .loopMap
  return (loops, ← loopTemplate args, ← site.permutes args)

theorem loop_eq (args : Arguments) : site.loop args = (do
    let (loops, template, permutations) ← site.loops args
    Loop.copies site.name loops template permutations) := by
  unfold loop loops
  cases args.field? "for_each" with
  | none => rfl
  | some given =>
    dsimp only
    rw [bind_assoc]
    refine bind_congr fun v => ?_
    cases v with
    | map loops =>
      have hpermutes (template : Value) :
          (match args.field? "permutations" with
            | none => Loop.copies site.name loops template true
            | some o => do
              match ← o.value with
              | .bool b => Loop.copies site.name loops template b
              | _ => site.refuse .permutations) =
          (do Loop.copies site.name loops template (← site.permutes args) : Inquiry Value) := by
        unfold permutes
        cases args.field? "permutations" with
        | none => rfl
        | some o =>
          dsimp only
          rw [bind_assoc]
          refine bind_congr fun v => ?_
          rcases v with (_ | _ | _ | _ | _) | _ | _ <;> rfl
      simp only [bind_assoc, pure_bind, loopTemplate]
      cases args.field? "template" with
      | none => exact hpermutes .null
      | some o => exact bind_congr hpermutes
    | _ => rfl

section

variable {args args' : Arguments} (h : args.Alike site.stack args')

include h

theorem loopTemplate_alike : Inquiry.Alike site.stack.truthOf Value.Alike (loopTemplate args)
    (loopTemplate args') := by
  have htemplate := h.field? "template"
  unfold loopTemplate
  generalize args.field? "template" = given at htemplate
  generalize args'.field? "template" = given' at htemplate
  cases htemplate with
  | none => exact .pure (.refl _)
  | some h => exact h.value

theorem permutes_alike : Inquiry.Alike site.stack.truthOf (· = ·) (site.permutes args)
    (site.permutes args') := by
  have hpermutations := h.field? "permutations"
  unfold permutes
  generalize args.field? "permutations" = given at hpermutations
  generalize args'.field? "permutations" = given' at hpermutations
  cases hpermutations with
  | none => exact .pure rfl
  | some h =>
    refine h.value.bind fun v w hv => ?_
    cases hv.cases with
    | scalar => exact .refl (fun _ => rfl) _
    | _ => exact .error

theorem loops_alike : Inquiry.Alike site.stack.truthOf
    (fun l l' => Value.Alike (.map l.1) (.map l'.1) ∧ l.2.1.Alike l'.2.1 ∧ l.2.2 = l'.2.2)
    (site.loops args) (site.loops args') := by
  have hloops := h.field? "for_each"
  unfold loops
  generalize args.field? "for_each" = given at hloops
  generalize args'.field? "for_each" = given' at hloops
  cases hloops with
  | none => exact .error
  | some hloops =>
    refine hloops.value.bind fun v w hv => ?_
    cases hv.cases with
    | map hm =>
      refine (site.loopTemplate_alike h).bind fun v w hv => ?_
      exact (site.permutes_alike h).bind fun b b' hb => .pure ⟨hm, hv, hb⟩
    | _ => exact .error

end

/-- Two calls run through loops in the same order, and copying makes no two keys of a map in what is
copied the same, or it has the same order in both. -/
def LoopsInOrder (args args' : Arguments) : Prop :=
  ∀ l l', (site.loops args).run site.stack.truthOf = .ok l →
    (site.loops args').run site.stack.truthOf = .ok l' →
      l.1.keys = l'.1.keys ∧ (l.2.1 = l'.2.1 ∨ ∀ all, Loop.chosen site.name l.2.2 l.1 = .ok all →
        ∀ ps ∈ all, l.2.1.keysApart (Loop.write ps) = true)

theorem loop_alike {args args' : Arguments} (h : args.Alike site.stack args')
    (horder : site.LoopsInOrder args args') : Inquiry.Alike site.stack.truthOf Value.Alike
      (site.loop args) (site.loop args') := by
  rw [loop_eq, loop_eq, Inquiry.Alike, Inquiry.run_bind, Inquiry.run_bind]
  have hloops := (site.loops_alike h).and_both
  refine hloops.bind ?_
  rintro ⟨m, v, b⟩ ⟨m', v', b'⟩ ⟨hl, hl', hm, hv, hb⟩
  obtain ⟨hkeys, hapart⟩ := horder _ _ hl hl'
  obtain rfl : b = b' := hb
  exact Loop.copies_alike b hm hkeys hv hapart

def params? (args : Arguments) : Option Operand :=
  match args.parts with
  | .items operands => operands.head?
  | .fields operands => operands.get? "params"
  | .single => none

/-- Two calls write parameters in the same order, or parameters of which no two with names of one
width overlap. -/
def ParamsInOrder (args args' : Arguments) : Prop :=
  ∀ o ∈ params? args, ∀ o' ∈ params? args', ∀ m m' : Fields Value,
    o.value.run site.stack.truthOf = .ok (.map m) →
    o'.value.run site.stack.truthOf = .ok (.map m') →
      m.keys = m'.keys ∨ Writing.OverlapFree m.keys

theorem replaceIn_alike (strictness : Strictness) {template template' params params' : Operand}
    (htemplate : template.Alike site.stack template') (hparams : params.Alike site.stack params')
    (horder : ∀ m m' : Fields Value, params.value.run site.stack.truthOf = .ok (.map m) →
      params'.value.run site.stack.truthOf = .ok (.map m') →
        m.keys = m'.keys ∨ Writing.OverlapFree m.keys) :
    Inquiry.Alike site.stack.truthOf Value.Alike (site.replaceIn strictness template params)
      (site.replaceIn strictness template' params') := by
  unfold replaceIn
  refine htemplate.value.bind fun v w hv => ?_
  refine Inquiry.Alike.bind (.lift (Writing.text_alike _ hv)) ?_
  rintro s _ rfl
  rw [Inquiry.Alike, Inquiry.run_bind, Inquiry.run_bind]
  refine (Result.Alike.and_both hparams.value).bind ?_
  rintro v w ⟨hfound, hfound', hv⟩
  cases hv.cases with
  | @map m m' hm =>
    refine (Writing.replace_alike strictness s hm (horder m m' hfound hfound')).imp ?_
    rintro v _ rfl
    exact .refl _
  | _ => exact .error

theorem replaceList_alike {args args' : Arguments} (h : args.Alike site.stack args')
    (horder : site.ParamsInOrder args args') : Inquiry.Alike site.stack.truthOf Value.Alike
      (site.replaceList args) (site.replaceList args') := by
  have hparts := h.parts
  unfold ParamsInOrder params? at horder
  unfold replaceList Arguments.items
  generalize args.parts = parts at hparts horder
  generalize args'.parts = parts' at hparts horder
  cases hparts with
  | items hitems =>
    rcases hitems with _ | ⟨hparams, _ | ⟨htemplate, _ | ⟨_, _⟩⟩⟩
    · exact .error
    · exact .error
    · exact site.replaceIn_alike .lenient htemplate hparams (horder _ rfl _ rfl)
    · exact .error
  | _ => exact .error

theorem replaceMap_alike (strictness : Strictness) {args args' : Arguments}
    (h : args.Alike site.stack args') (horder : site.ParamsInOrder args args') :
    Inquiry.Alike site.stack.truthOf Value.Alike (site.replaceMap strictness args)
      (site.replaceMap strictness args') := by
  have hparts := h.parts
  unfold ParamsInOrder params? at horder
  unfold replaceMap Arguments.field?
  generalize args.parts = parts at hparts horder
  generalize args'.parts = parts' at hparts horder
  cases hparts with
  | fields hfields =>
    have hparams := hfields "params"
    have htemplate := hfields "template"
    dsimp only at horder ⊢
    generalize Fields.get? _ "params" = params at hparams horder
    generalize Fields.get? _ "params" = params' at hparams horder
    generalize Fields.get? _ "template" = template at htemplate
    generalize Fields.get? _ "template" = template' at htemplate
    cases hparams with
    | none => exact .error
    | some hparams =>
      cases htemplate with
      | none => exact .error
      | some htemplate =>
        exact site.replaceIn_alike strictness htemplate hparams (horder _ rfl _ rfl)
  | _ => exact .error

def KeepsOrder (args args' : Arguments) : Intrinsic → Prop
  | .loop _ => site.LoopsInOrder args args'
  | .replaceList | .replaceMap _ => site.ParamsInOrder args args'
  | _ => True

theorem value_alike {args args' : Arguments} (h : args.Alike site.stack args') (fn : Intrinsic)
    (horder : site.KeepsOrder args args' fn) : Inquiry.Alike site.stack.truthOf Value.Alike
      (site.value args fn) (site.value args' fn) := by
  cases fn with
  | parameter => exact site.parameter_alike h
  | resource => exact site.resource_alike h
  | attributeOf => exact site.attributeOf_alike h
  | file => exact site.file_alike h
  | mapping => exact site.mapping_alike h
  | facade field => exact .refl .refl _
  | select => exact site.select_alike h
  | memberList => exact site.memberList_alike h
  | loop zips => exact site.loop_alike h horder
  | merge => exact site.merge_alike h
  | rename => exact site.rename_alike h
  | filter => exact site.filter_alike h
  | concat unique => exact site.concat_alike h unique
  | contains => exact site.contains_alike h
  | join multiple => exact site.join_alike h multiple
  | split => exact site.split_alike h
  | replaceList => exact site.replaceList_alike h horder
  | replaceMap strictness => exact site.replaceMap_alike strictness h horder
  | base64 => exact site.base64_alike h
  | digest => exact site.digest_alike h
  | equals => exact site.equals_alike h
  | connective c => exact site.connective_alike h c
  | choice => exact site.choice_alike h
  | condition => exact site.condition_alike h
  | negation => exact site.negation_alike h
  | unavailable version reason => exact .error

end Site

end Evaluation

end Orchestration
