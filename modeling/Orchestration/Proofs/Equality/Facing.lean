import Orchestration.Proofs.Equality.Matching

/-!
What faces each other in equal snippets. Main statement: a relation that holds of what is made of
parts in it holds of equal snippets, where whatever faces each other in them lets it.
-/

namespace Orchestration

namespace Snippet

/-- Parts that stand at the same place in two snippets. -/
inductive Facing : Snippet → Snippet → Snippet → Snippet → Prop
  | whole {s s'} : Facing s s' s s'
  | item {ss ts s s' x y} : (s, s') ∈ ss.zip ts → Facing s s' x y → Facing (.list ss) (.list ts) x y
  | field {ss ts key s s' x y} :
    (key, s) ∈ ss → (key, s') ∈ ts → Facing s s' x y → Facing (.map ss) (.map ts) x y
  | args {c c' args args' x y} :
    Facing args args' x y → Facing (.call c args) (.call c' args') x y

def Throughout (P : Snippet → Snippet → Prop) (s s' : Snippet) : Prop :=
  ∀ x y, Facing s s' x y → P x y

namespace Throughout

variable {P Q : Snippet → Snippet → Prop} {s s' a a' : Snippet} {ss ts : List Snippet}
  {m m' : Fields Snippet} {c c' : Call}

theorem whole (h : Throughout P s s') : P s s' := h _ _ .whole

theorem item (h : Throughout P (.list ss) (.list ts)) : ∀ p ∈ ss.zip ts, Throughout P p.1 p.2 :=
  fun _ hp _ _ hfacing => h _ _ (.item hp hfacing)

theorem field (h : Throughout P (.map m) (.map m')) {key : String} (hs : (key, s) ∈ m)
    (hs' : (key, s') ∈ m') : Throughout P s s' := fun _ _ hfacing => h _ _ (.field hs hs' hfacing)

theorem args (h : Throughout P (.call c a) (.call c' a')) : Throughout P a a' :=
  fun _ _ hfacing => h _ _ (.args hfacing)

theorem and (hP : Throughout P s s') (hQ : Throughout Q s s') :
    Throughout (fun x y => P x y ∧ Q x y) s s' :=
  fun _ _ hfacing => ⟨hP _ _ hfacing, hQ _ _ hfacing⟩

theorem scalar {a b : Scalar} (h : P (.scalar a) (.scalar b)) :
    Throughout P (.scalar a) (.scalar b) := by
  rintro _ _ ⟨⟩
  exact h

theorem map (h : P (.map m) (.map m'))
    (hfields : ∀ e ∈ m, ∀ e' ∈ m', e.1 = e'.1 → Throughout P e.2 e'.2) :
    Throughout P (.map m) (.map m') := by
  intro x y hfacing
  cases hfacing with
  | whole => exact h
  | field hs hs' hfacing => exact hfields _ hs _ hs' rfl x y hfacing

theorem call (h : P (.call c a) (.call c' a')) (hargs : Throughout P a a') :
    Throughout P (.call c a) (.call c' a') := by
  intro x y hfacing
  cases hfacing with
  | whole => exact h
  | args hfacing => exact hargs x y hfacing

end Throughout

variable {t : Template} {stack : StackId} {P R : Snippet → Snippet → Prop}

/-- Where `P` lets it, what is made of equal parts in `R` is in `R`. -/
structure Closed (t : Template) (stack : StackId) (P R : Snippet → Snippet → Prop) : Prop where
  operands : ∀ s s', P s s' → OperandsRead t stack s s'
  layer : ∀ s s', P s s' →
    Layer (fun x y => Matches t stack x y ∧ Throughout P x y ∧ R x y) s s' → R s s'

mutual

theorem Closed.relates (hR : Closed t stack P R) :
    ∀ s s' : Snippet, Matches t stack s s' → Throughout P s s' → R s s'
  | .scalar _, s', h, hP => by
    cases h.layer (hR.operands _ _ hP.whole) with
    | scalar heq => exact hR.layer _ _ hP.whole (.scalar heq)
  | .list ss, s', h, hP => by
    cases h.layer (hR.operands _ _ hP.whole) with
    | list hitems => exact hR.layer _ _ hP.whole (.list (hR.relatesItems ss _ hitems hP.item))
  | .map m, s', h, hP => by
    cases h.layer (hR.operands _ _ hP.whole) with
    | map hfields hperm hkeys =>
      have hP' {key : String} {x y : Snippet} (hx : (key, x) ∈ m) (hy : (key, y) ∈ _) :=
        hP.field hx (hperm.subset hy)
      exact hR.layer _ _ hP.whole (.map (hR.relatesFields m _ hfields @hP') hperm hkeys)
  | .call c args, s', h, hP => by
    cases h.layer (hR.operands _ _ hP.whole) with
    | call hargs =>
      exact hR.layer _ _ hP.whole (.call ⟨hargs, hP.args, hR.relates args _ hargs hP.args⟩)

theorem Closed.relatesItems (hR : Closed t stack P R) :
    ∀ ss ts : List Snippet, List.Forall₂ (Matches t stack) ss ts →
      (∀ p ∈ ss.zip ts, Throughout P p.1 p.2) →
        List.Forall₂ (fun x y => Matches t stack x y ∧ Throughout P x y ∧ R x y) ss ts
  | [], _, h, _ => by
    cases h
    exact .nil
  | s :: ss, _, h, hP => by
    cases h with
    | cons h hs =>
      obtain ⟨hfirst, hrest⟩ := List.forall_mem_cons.1 hP
      exact .cons ⟨h, hfirst, hR.relates s _ h hfirst⟩ (hR.relatesItems ss _ hs hrest)

theorem Closed.relatesFields (hR : Closed t stack P R) :
    ∀ m us : List (String × Snippet),
      List.Forall₂ (Fields.Entry (Matches t stack)) m us →
        (∀ {key x y}, (key, x) ∈ m → (key, y) ∈ us → Throughout P x y) →
          List.Forall₂
            (Fields.Entry fun x y => Matches t stack x y ∧ Throughout P x y ∧ R x y) m us
  | [], _, h, _ => by
    cases h
    exact .nil
  | (key, s) :: rest, _, h, hP => by
    cases h with
    | @cons _ e _ us he hs =>
      obtain ⟨key', s'⟩ := e
      obtain ⟨rfl, h⟩ : key = key' ∧ Matches t stack s s' := he
      have hfirst : Throughout P s s' := hP (List.mem_cons_self ..) (List.mem_cons_self ..)
      exact .cons ⟨rfl, h, hfirst, hR.relates s s' h hfirst⟩ (hR.relatesFields rest us hs
        fun hx hy => hP (List.mem_cons_of_mem _ hx) (List.mem_cons_of_mem _ hy))

end

end Snippet

end Orchestration
