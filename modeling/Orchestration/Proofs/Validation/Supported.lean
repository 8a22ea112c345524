import Orchestration.Proofs.Conditions.History
import Orchestration.Proofs.Snippets.Calls

namespace Orchestration

def Error.isUnsupported : Error → Bool
  | .bare (.unsupportedFunction _ _ _) => true
  | _ => false

variable {α β : Type}

def Result.Supported (r : Result α) : Prop := ∀ e, r = .error e → e.isUnsupported = false

namespace Result.Supported

theorem pure (a : α) : Supported (pure a) := nofun

theorem fault (f : TemplateFault) : Supported (fault f : Result α) := by
  rintro _ ⟨⟩
  rfl

theorem bind {r : Result α} {f : α → Result β} (hr : Supported r) (hf : ∀ a, Supported (f a)) :
    Supported (r >>= f) := by
  cases r with
  | error e => exact fun _ h => hr _ (by cases h; rfl)
  | ok a => exact hf a

theorem ite {c : Prop} [Decidable c] {r r' : Result α} (hr : Supported r) (hr' : Supported r') :
    Supported (if c then r else r') := by
  split
  · exact hr
  · exact hr'

theorem map {r : Result α} (f : α → β) (hr : Supported r) : Supported (f <$> r) := by
  rw [← bind_pure_comp]
  exact hr.bind fun a => pure (f a)

theorem mapM {f : α → Result β} {as : List α} (h : ∀ a ∈ as, Supported (f a)) :
    Supported (as.mapM f) := by
  induction as with
  | nil => exact pure []
  | cons a as ih =>
    obtain ⟨ha, has⟩ := List.forall_mem_cons.1 h
    rw [List.mapM_cons]
    exact ha.bind fun _ => (ih has).bind fun _ => pure _

theorem foldlM {f : β → α → Result β} {as : List α} (h : ∀ b a, Supported (f b a)) (b : β) :
    Supported (as.foldlM f b) := by
  induction as generalizing b with
  | nil => exact pure b
  | cons a as ih =>
    rw [List.foldlM_cons]
    exact (h b a).bind fun b => ih b

end Result.Supported

namespace Inquiry

def Supported : Inquiry α → Prop
  | done r => Result.Supported r
  | ask _ next => ∀ b, (next b).Supported

namespace Supported

theorem pure (a : α) : Supported (pure a) := Result.Supported.pure a

theorem lift {r : Result α} (h : Result.Supported r) : Supported (liftM r) := h

theorem bind {q : Inquiry α} {f : α → Inquiry β} (hq : Supported q) (hf : ∀ a, Supported (f a)) :
    Supported (q >>= f) := by
  induction q with
  | done r =>
    cases r with
    | error e => exact fun _ h => hq _ (by cases h; rfl)
    | ok a => exact hf a
  | ask name next ih => exact fun b => ih b (hq b)

theorem map {q : Inquiry α} (f : α → β) (hq : Supported q) : Supported (f <$> q) :=
  hq.bind fun a => pure (f a)

/-- What was found so far stands in `found`, the last one first. -/
theorem mapM_loop {f : α → Inquiry β} {as : List α} (h : ∀ a ∈ as, Supported (f a))
    (found : List β) : Supported (List.mapM.loop f as found) := by
  induction as generalizing found with
  | nil => exact pure _
  | cons a as ih =>
    obtain ⟨ha, has⟩ := List.forall_mem_cons.1 h
    exact ha.bind fun b => ih has (b :: found)

theorem mapM {f : α → Inquiry β} {as : List α} (h : ∀ a ∈ as, Supported (f a)) :
    Supported (as.mapM f) := mapM_loop h []

theorem foldlM {f : β → α → Inquiry β} {as : List α} (h : ∀ b, ∀ a ∈ as, Supported (f b a))
    (b : β) : Supported (as.foldlM f b) := by
  induction as generalizing b with
  | nil => exact pure b
  | cons a as ih =>
    rw [List.foldlM_cons]
    exact (h b a (by simp)).bind fun b => ih (fun b a ha => h b a (by simp [ha])) b

theorem run {q : Inquiry α} {find : String → Result Bool} (hq : Supported q)
    (hfind : ∀ name, Result.Supported (find name)) : Result.Supported (q.run find) := by
  induction q with
  | done r => exact hq
  | ask name next ih => exact (hfind name).bind fun b => ih b (hq b)

end Supported

end Inquiry

/-! What the functions compute from values. -/

section

variable {function : String} {v w : Value}

theorem Collection.supported_select : Result.Supported (Collection.select function v w) := by
  have hdecoded : Result.Supported (Collection.decoded function w) := by
    unfold Collection.decoded
    split
    · split
      · exact .pure _
      · exact .fault _
    · exact .pure _
  refine hdecoded.bind fun w => ?_
  split
  · split
    · exact .pure _
    · exact .fault _
  · split
    · exact .pure _
    · exact .fault _
  · exact .pure _
  · exact .fault _

theorem Collection.supported_merge {merged : Fields Value} :
    Result.Supported (Collection.merge merged v) := by
  unfold Collection.merge
  split
  · exact .pure _
  · exact .pure _
  · exact .fault _

theorem Collection.supported_replacements {kind : String} {given : Fields Value} :
    Result.Supported (Collection.replacements function kind given) := by
  unfold Collection.replacements
  split
  · exact .pure _
  · exact .pure _
  · exact .pure _
  · exact .fault _

theorem Collection.supported_rename {input keys values : Fields Value} :
    Result.Supported (Collection.rename input keys values) := by
  refine .foldlM (fun output e => ?_) []
  have hrenamed : Result.Supported (Collection.renamed input keys e.1) := by
    unfold Collection.renamed
    split
    · exact .pure _
    · split
      · exact .fault _
      · exact .pure _
    · exact .fault _
  refine hrenamed.bind fun name => ?_
  dsimp only
  split
  · exact .fault _
  · exact .pure _

theorem Loop.supported_copies {loops : Fields Value} {permutations : Bool} :
    Result.Supported (Loop.copies function loops v permutations) := by
  have hentry (placeholder : String) (v : Value) :
      Result.Supported (Loop.ofEntry function placeholder v) := by
    unfold Loop.ofEntry
    split
    · refine (Result.Supported.mapM fun v _ => ?_).bind fun texts => .pure _
      split
      · exact .pure _
      · exact .fault _
    · exact .fault _
  refine (Result.Supported.mapM fun e _ => hentry e.1 e.2).bind fun loops => ?_
  dsimp only
  split
  · exact .pure _
  · split
    · exact .pure _
    · exact .fault _

theorem Writing.supported_text {what : String} :
    Result.Supported (Writing.text function what v) := by
  unfold Writing.text
  split
  · exact .pure _
  · exact .fault _

theorem Writing.supported_itemTexts {multiple : Bool} :
    Result.Supported (Writing.itemTexts function multiple v) := by
  unfold Writing.itemTexts
  split
  · exact .pure _
  · refine .mapM fun item _ => ?_
    unfold Writing.itemText
    split
    · exact .pure _
    · exact .pure _
    · exact .fault _
    · split
      · exact .pure _
      · exact .fault _
  · exact .fault _

theorem Writing.supported_splitText : Result.Supported (Writing.splitText function v) := by
  unfold Writing.splitText
  split
  · exact .pure _
  · exact .pure _
  · exact .fault _

theorem Writing.supported_piece {pieces : List String} :
    Result.Supported (Writing.piece function pieces v) := by
  unfold Writing.piece
  split
  · exact .pure _
  · exact .fault _

theorem Writing.supported_replace {strictness : Strictness} {template : String} :
    Result.Supported (Writing.replace function strictness template v) := by
  unfold Writing.replace
  split
  · refine (Result.Supported.mapM fun e _ => ?_).bind fun ps => .pure _
    unfold Writing.param
    dsimp only
    split
    · exact .fault _
    · split
      · exact .bind (.fault _) fun _ => .ite (.bind (.fault _) fun _ => .pure _) (.pure _)
      · exact .ite (.bind (.fault _) fun _ => .pure _) (.pure _)
  · exact .fault _

theorem Writing.supported_digest {algorithm s : String} :
    Result.Supported (Writing.digest function algorithm s) := by
  unfold Writing.digest
  split
  · exact .pure _
  · exact .fault _

theorem Parameters.supported_value {ps : Parameters} {name : String} :
    Result.Supported (ps.value name) := by
  unfold Parameters.value
  split
  · rintro _ ⟨⟩
    rfl
  · rintro _ ⟨⟩
    rfl
  · exact .pure _

end

def Resources.Supported (rs : Resources) : Prop :=
  ∀ name, ∀ r ∈ rs.get? name, ∀ field, Result.Supported (r.attributeValue field)

theorem StaticResources.supported (rs : StaticResources) : rs.toResources.Supported := by
  intro name r hr field
  obtain ⟨static, -, rfl⟩ := Option.map_eq_some_iff.1 hr
  simp only [StaticResource.toResource]
  split
  · exact .pure _
  · rintro _ ⟨⟩
    rfl

def Call.IsOffered (c : Call) : Prop := ∀ version reason, c.fn ≠ .unavailable version reason

namespace Evaluation

variable {stack : Stack}

theorem Operand.supported_isEnabled {o : Operand} (h : o.value.Supported) :
    o.isEnabled.Supported := by
  have htruth (name : String) : (Inquiry.truth name).Supported := fun b => .pure b
  unfold Operand.isEnabled
  split
  · exact .pure _
  · exact .pure _
  · exact htruth _
  · refine h.bind fun v => ?_
    split
    · exact .pure _
    · exact htruth _
    · rintro _ ⟨⟩
      rfl
  · rintro _ ⟨⟩
    rfl

structure Arguments.Supported (args : Arguments) : Prop where
  whole : args.whole.value.Supported
  items : ∀ o ∈ args.items, o.value.Supported
  field : ∀ key, ∀ o ∈ args.field? key, o.value.Supported

namespace Site

variable {site : Site} {args : Arguments}

theorem supported_resource : (site.resource args).Supported := .pure _

theorem supported_file : (site.file args).Supported := by
  unfold file
  dsimp only
  split
  · exact .pure _
  · exact .fault _

theorem supported_facade {field : FacadeField} : (site.facade field).Supported := by
  unfold facade
  split
  · cases field <;> exact .pure _
  · exact .fault _

theorem supported_condition : (site.condition args).Supported := by
  unfold condition
  split
  · exact .bind (fun b => .pure b) fun b => .pure _
  · exact .fault _

section

variable (h : args.Supported)

include h

theorem supported_parameter : (site.parameter args).Supported := by
  unfold parameter
  refine h.whole.bind fun v => ?_
  dsimp only
  split <;> refine .bind (by first | exact .pure _ | exact .fault _) fun e => ?_
  all_goals
    split
    · exact (Inquiry.Supported.lift Parameters.supported_value).bind fun v => .pure _
    · exact .fault _

theorem supported_attributeOf (hresources : site.stack.resources.Supported) :
    (site.attributeOf args).Supported := by
  unfold attributeOf
  dsimp only
  split
  · next resource hresource =>
    obtain ⟨hr, -⟩ := Option.filter_eq_some_iff.1 hresource
    obtain ⟨name, -, hr⟩ := Option.bind_eq_some_iff.1 hr
    have hattribute : ∀ field path, Result.Supported (resource.attributeAt field path) :=
      fun field path => (hresources name resource hr field).map _
    split
    on_goal 1 =>
      rename_i o ho
      refine (h.items o (List.mem_of_getElem? ho)).bind fun field => ?_
    on_goal 2 => refine .bind (.pure _) fun field => ?_
    all_goals
      split
      · refine (Inquiry.Supported.mapM fun o ho => ?_).bind fun path => .lift (hattribute _ _)
        exact h.items o (List.mem_of_mem_drop ho)
      · exact .fault _
  · exact .pure _

theorem supported_mapping : (site.mapping args).Supported := by
  unfold mapping
  split
  · next mapping key field hitems =>
    dsimp only
    refine .bind ((h.items mapping (by simp [hitems])).bind fun v => ?_) fun mapping => ?_
    · split
      · exact .pure _
      · exact .fault _
    refine .bind ((h.items key (by simp [hitems])).bind fun v => ?_) fun key => ?_
    · split
      · exact .pure _
      · exact .fault _
    refine .bind ((h.items field (by simp [hitems])).bind fun v => ?_) fun field => ?_
    · split
      · exact .pure _
      · exact .fault _
    split
    · exact .fault _
    · split
      · exact .pure _
      · exact .fault _
  · exact .fault _

theorem supported_select : (site.select args).Supported := by
  unfold select
  split
  · next index collection hitems =>
    refine (h.items index (by simp [hitems])).bind fun index => ?_
    refine (h.items collection (by simp [hitems])).bind fun collection => ?_
    exact .lift Collection.supported_select
  · exact .fault _

theorem supported_memberList : (site.memberList args).Supported := by
  unfold memberList
  split
  · next key field members hitems =>
    split
    · split
      · refine (h.items members (by simp [hitems])).bind fun members => ?_
        split
        · split
          · exact .pure _
          · exact .fault _
        · exact .fault _
      · exact .fault _
    · exact .fault _
  · exact .fault _

theorem supported_loop : (site.loop args).Supported := by
  unfold loop
  split
  · next loops hloops =>
    refine (h.field _ loops hloops).bind fun loops => ?_
    split
    · dsimp only
      split
      on_goal 1 =>
        rename_i o ho
        refine (h.field _ o ho).bind fun template => ?_
      on_goal 2 => refine .bind (.pure _) fun template => ?_
      all_goals
        split
        · exact .bind (.pure _) fun permutations => .lift Loop.supported_copies
        · next o ho =>
          refine (h.field _ o ho).bind fun v => ?_
          split
          · exact .bind (.pure _) fun permutations => .lift Loop.supported_copies
          · exact .bind (.fault _) fun permutations => .lift Loop.supported_copies
    · exact .fault _
  · exact .fault _

theorem supported_merge : (merge args).Supported := by
  refine (Inquiry.Supported.foldlM (fun merged o ho => ?_) []).map _
  exact (h.items o ho).bind fun v => .lift Collection.supported_merge

theorem supported_rename : (site.rename args).Supported := by
  unfold rename
  split
  · next input replacements hitems =>
    refine (h.items input (by simp [hitems])).bind fun input => ?_
    split
    · refine (h.items replacements (by simp [hitems])).bind fun given => ?_
      split
      · dsimp only
        split
        · refine (Inquiry.Supported.lift Collection.supported_replacements).bind fun keys => ?_
          refine (Inquiry.Supported.lift Collection.supported_replacements).bind fun values => ?_
          exact (Inquiry.Supported.lift Collection.supported_rename).map _
        · exact .fault _
      · exact .fault _
    · exact .fault _
  · exact .fault _

theorem supported_filter : (site.filter args).Supported := by
  unfold filter
  split
  · next removed items hitems =>
    refine (h.items removed (by simp [hitems])).bind fun removed => ?_
    dsimp only
    split <;> refine .bind (by first | exact .pure _ | exact .fault _) fun removed => ?_
    all_goals
      refine (h.items items (by simp [hitems])).bind fun items => ?_
      split
      · exact .pure _
      · exact .fault _
  · exact .fault _

theorem supported_concat {unique : Bool} : (site.concat unique args).Supported := by
  refine (Inquiry.Supported.foldlM (fun found o ho => ?_) []).map _
  refine (h.items o ho).bind fun v => ?_
  split
  · exact .pure _
  · exact .pure _
  · exact .fault _

theorem supported_contains : (site.contains args).Supported := by
  unfold contains
  split
  · next needle haystack hitems =>
    refine (h.items needle (by simp [hitems])).bind fun needle => ?_
    refine (h.items haystack (by simp [hitems])).bind fun haystack => ?_
    split
    · exact .pure _
    · exact .fault _
  · exact .fault _

theorem supported_join {multiple : Bool} : (site.join multiple args).Supported := by
  unfold join
  split
  · next delimiter lists hitems =>
    refine (h.items delimiter (by simp [hitems])).bind fun delimiter => ?_
    refine (Inquiry.Supported.lift Writing.supported_text).bind fun delimiter => ?_
    refine (Inquiry.Supported.mapM fun o ho => ?_).bind fun texts => .pure _
    exact (h.items o (by simp [hitems, ho])).bind fun v => .lift Writing.supported_itemTexts
  · exact .fault _

theorem supported_split : (site.split args).Supported := by
  unfold split
  split
  · next delimiter s index hitems =>
    refine (h.items delimiter (by simp [hitems])).bind fun delimiter => ?_
    refine (Inquiry.Supported.lift Writing.supported_text).bind fun delimiter => ?_
    refine (h.items s (by simp [hitems])).bind fun s => ?_
    refine (Inquiry.Supported.lift Writing.supported_splitText).bind fun s => ?_
    dsimp only
    split
    · exact .fault _
    · split
      · exact .pure _
      · next index _ =>
        refine (h.items index (by simp [hitems])).bind fun index => ?_
        exact .lift Writing.supported_piece
  · exact .fault _

omit h in
theorem supported_replaceIn {strictness : Strictness} {template params : Operand}
    (ht : template.value.Supported) (hp : params.value.Supported) :
    (site.replaceIn strictness template params).Supported := by
  refine ht.bind fun template => ?_
  refine (Inquiry.Supported.lift Writing.supported_text).bind fun template => ?_
  exact hp.bind fun params => .lift Writing.supported_replace

theorem supported_replaceList : (site.replaceList args).Supported := by
  unfold replaceList
  split
  · next params template hitems =>
    exact supported_replaceIn (h.items template (by simp [hitems]))
      (h.items params (by simp [hitems]))
  · exact .fault _

theorem supported_replaceMap {strictness : Strictness} :
    (site.replaceMap strictness args).Supported := by
  unfold replaceMap
  split
  · next params hparams =>
    split
    · next template htemplate =>
      exact supported_replaceIn (h.field _ template htemplate) (h.field _ params hparams)
    · exact .fault _
  · exact .fault _

theorem supported_base64 : (site.base64 args).Supported :=
  h.whole.bind fun _ => (Inquiry.Supported.lift Writing.supported_text).bind fun _ => .pure _

theorem supported_digest : (site.digest args).Supported := by
  unfold digest
  split
  · next algorithm s hitems =>
    refine (h.items algorithm (by simp [hitems])).bind fun algorithm => ?_
    refine (Inquiry.Supported.lift Writing.supported_text).bind fun algorithm => ?_
    refine (h.items s (by simp [hitems])).bind fun s => ?_
    refine (Inquiry.Supported.lift Writing.supported_text).bind fun s => ?_
    exact .lift Writing.supported_digest
  · exact .fault _

theorem supported_equals : (site.equals args).Supported := by
  unfold equals
  split
  · next left right hitems =>
    refine (h.items left (by simp [hitems])).bind fun left => ?_
    exact (h.items right (by simp [hitems])).bind fun right => .pure _
  · exact .fault _

omit h in
theorem supported_decide {stop : Bool} {os : List Operand} (hos : ∀ o ∈ os, o.value.Supported) :
    (decide stop os).Supported := by
  induction os with
  | nil => exact .pure _
  | cons o os ih =>
    obtain ⟨ho, hos⟩ := List.forall_mem_cons.1 hos
    refine (Operand.supported_isEnabled ho).bind fun b => ?_
    split
    · exact .pure _
    · exact ih hos

theorem supported_connective {c : Connective} : (connective c args).Supported :=
  (supported_decide h.items).map _

theorem supported_negation : (site.negation args).Supported := by
  unfold negation
  dsimp only
  split
  · next operand hoperand =>
    have ho : operand.value.Supported := by
      split at hoperand
      · next hparts =>
        refine h.items operand ?_
        rw [Arguments.items, hparts]
        exact List.mem_of_mem_head? hoperand
      · cases hoperand
        exact h.whole
    refine ho.bind fun v => ?_
    split
    · exact .pure _
    · exact .fault _
  · exact .fault _

theorem supported_choice : (site.choice args).Supported := by
  unfold choice
  split
  · next condition yes no hitems =>
    refine (Operand.supported_isEnabled (h.items condition (by simp [hitems]))).bind fun b => ?_
    split
    · exact h.items yes (by simp [hitems])
    · exact h.items no (by simp [hitems])
  · exact .fault _

theorem supported_value {fn : Intrinsic} (hresources : site.stack.resources.Supported)
    (hfn : ∀ version reason, fn ≠ .unavailable version reason) :
    (site.value args fn).Supported := by
  cases fn with
  | parameter => exact supported_parameter h
  | resource => exact supported_resource
  | attributeOf => exact supported_attributeOf h hresources
  | file => exact supported_file
  | mapping => exact supported_mapping h
  | facade => exact supported_facade
  | select => exact supported_select h
  | memberList => exact supported_memberList h
  | loop => exact supported_loop h
  | merge => exact supported_merge h
  | rename => exact supported_rename h
  | filter => exact supported_filter h
  | concat => exact supported_concat h
  | contains => exact supported_contains h
  | join => exact supported_join h
  | split => exact supported_split h
  | replaceList => exact supported_replaceList h
  | replaceMap => exact supported_replaceMap h
  | base64 => exact supported_base64 h
  | digest => exact supported_digest h
  | equals => exact supported_equals h
  | connective => exact supported_connective h
  | choice => exact supported_choice h
  | condition => exact supported_condition
  | negation => exact supported_negation h
  | unavailable version reason => exact absurd rfl (hfn version reason)

end

end Site

open Snippet (Every EveryItem EveryField)

theorem supported_checkOwn (c : Call) : Result.Supported (stack.checkOwn c) := by
  unfold Stack.checkOwn
  split
  · exact .pure _
  · rintro _ ⟨⟩
    rfl

mutual

theorem supported_resolve (hresources : stack.resources.Supported) :
    ∀ s : Snippet, s.Every (fun c _ => c.IsOffered) → (resolve stack s).Supported
  | .scalar _, _ => .pure _
  | .list items, h =>
    (Inquiry.Supported.mapM fun o ho => supported_operands hresources items h o ho).map _
  | .map fields, h => by
    refine (Inquiry.Supported.mapM fun e he => ?_).map _
    exact (supported_fieldOperands hresources fields h e he).bind fun v => .pure _
  | .call c args, h => by
    refine (Inquiry.Supported.lift (supported_checkOwn c)).bind fun _ => ?_
    exact Site.supported_value (supported_arguments hresources args h.2) hresources h.1

theorem supported_arguments (hresources : stack.resources.Supported) :
    ∀ s : Snippet, s.Every (fun c _ => c.IsOffered) →
      Arguments.Supported ⟨⟨s, fun _ => resolve stack s⟩, parts stack s⟩
  | .scalar _, h => ⟨supported_resolve hresources _ h, nofun, nofun⟩
  | .list items, h =>
    ⟨supported_resolve hresources _ h, supported_operands hresources items h, nofun⟩
  | .map fields, h =>
    ⟨supported_resolve hresources _ h, nofun, fun key o ho =>
      supported_fieldOperands hresources fields h (key, o) (Fields.mem_of_get? ho)⟩
  | .call _ _, h => ⟨supported_resolve hresources _ h, nofun, nofun⟩

theorem supported_operands (hresources : stack.resources.Supported) :
    ∀ items : List Snippet, EveryItem (fun c _ => c.IsOffered) items →
      ∀ o ∈ operands stack items, o.value.Supported
  | [], _ => nofun
  | s :: rest, h => by
    intro o ho
    obtain rfl | ho := List.mem_cons.1 ho
    · exact supported_resolve hresources s h.1
    · exact supported_operands hresources rest h.2 o ho

theorem supported_fieldOperands (hresources : stack.resources.Supported) :
    ∀ fields : List (String × Snippet), EveryField (fun c _ => c.IsOffered) fields →
      ∀ e ∈ fieldOperands stack fields, e.2.value.Supported
  | [], _ => nofun
  | (_, s) :: rest, h => by
    intro e he
    obtain rfl | he := List.mem_cons.1 he
    · exact supported_resolve hresources s h.1
    · exact supported_fieldOperands hresources rest h.2 e he

end

theorem supported_truth (hresources : stack.resources.Supported) (name : String)
    {definition : Snippet} (h : definition.Every fun c _ => c.IsOffered) :
    (truth stack name definition).Supported := by
  have hstop : (Inquiry.stop (.conditionResult name) : Inquiry Bool).Supported := by
    rintro _ ⟨⟩
    rfl
  unfold truth
  split
  · exact .pure _
  · exact fun b => .pure b
  · refine (supported_resolve hresources _ h).bind fun v => ?_
    split
    · exact .pure _
    · exact hstop
  · exact hstop

end Evaluation

namespace Stack

variable {stack : Stack}

theorem supported_truthUnder (hresources : stack.resources.Supported)
    (h : ∀ name, ∀ definition ∈ stack.conditions.get? name, definition.Every fun c _ => c.IsOffered)
    (under : List String) (name : String) : Result.Supported (stack.truthUnder under name) := by
  induction under, name using truthUnder.induct stack with
  | case1 under name hd =>
    rw [truthUnder_of_none hd]
    exact .fault _
  | case2 under name definition hd hu =>
    rw [truthUnder_of_mem hd hu]
    rintro _ ⟨⟩
    rfl
  | case3 under name definition hd hu ih =>
    rw [truthUnder_of_notMem hd hu]
    exact (Evaluation.supported_truth hresources name (h name definition hd)).run ih

end Stack

end Orchestration
