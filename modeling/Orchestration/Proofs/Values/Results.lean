import Mathlib.Data.List.Perm.Basic
import Orchestration.Error

namespace Orchestration

inductive Result.Alike {α β : Type} (R : α → β → Prop) : Result α → Result β → Prop
  | ok {a b} : R a b → Alike R (.ok a) (.ok b)
  | error {e e'} : Alike R (.error e) (.error e')

namespace Result.Alike

variable {α β γ δ : Type} {R : α → β → Prop} {S : γ → δ → Prop}

theorem refl {R : α → α → Prop} (hR : ∀ a, R a a) (r : Result α) : Alike R r r := by
  cases r with
  | error e => exact .error
  | ok a => exact .ok (hR a)

theorem bind {x : Result α} {y : Result β} {f : α → Result γ} {g : β → Result δ}
    (h : Alike R x y) (hfg : ∀ a b, R a b → Alike S (f a) (g b)) : Alike S (x >>= f) (y >>= g) := by
  cases h with
  | error => exact .error
  | ok hab => exact hfg _ _ hab

theorem map {x : Result α} {y : Result β} {f : α → γ} {g : β → δ} (h : Alike R x y)
    (hfg : ∀ a b, R a b → S (f a) (g b)) : Alike S (f <$> x) (g <$> y) := by
  cases h with
  | error => exact .error
  | ok hab => exact .ok (hfg _ _ hab)

theorem imp {x : Result α} {y : Result β} {R' : α → β → Prop} (h : Alike R x y)
    (hR : ∀ a b, R a b → R' a b) : Alike R' x y := by
  cases h with
  | error => exact .error
  | ok hab => exact .ok (hR _ _ hab)

theorem and_left {P : α → Prop} {x : Result α} {y : Result β} (h : Alike R x y)
    (hP : ∀ a, x = .ok a → P a) : Alike (fun a b => P a ∧ R a b) x y := by
  cases h with
  | error => exact .error
  | ok hab => exact .ok ⟨hP _ rfl, hab⟩

theorem and_both {x : Result α} {y : Result β} (h : Alike R x y) :
    Alike (fun a b => x = .ok a ∧ y = .ok b ∧ R a b) x y := by
  cases h with
  | error => exact .error
  | ok hab => exact .ok ⟨rfl, rfl, hab⟩

theorem trans {T : β → γ → Prop} {x : Result α} {y : Result β} {z : Result γ} (h : Alike R x y)
    (h' : Alike T y z) : Alike (Relation.Comp R T) x z := by
  cases h with
  | error => cases h'; exact .error
  | ok hab => cases h' with | ok hbc => exact .ok ⟨_, hab, hbc⟩

theorem congr {x x' : Result α} {y y' : Result β} (hx : Alike (· = ·) x x')
    (hy : Alike (· = ·) y y') (h : Alike R x' y') : Alike R x y := by
  cases h with
  | error => cases hx; cases hy; exact .error
  | ok hab =>
    cases hx with | ok hx => cases hy with | ok hy => exact .ok (hx ▸ hy ▸ hab)

theorem mapM {P : γ → δ → Prop} {f : γ → Result α} {g : δ → Result β} {cs : List γ}
    {ds : List δ} (h : List.Forall₂ P cs ds) (hfg : ∀ c d, P c d → Alike R (f c) (g d)) :
    Alike (List.Forall₂ R) (cs.mapM f) (ds.mapM g) := by
  induction h with
  | nil => exact .ok .nil
  | cons hcd _ ih =>
    rw [List.mapM_cons, List.mapM_cons]
    exact (hfg _ _ hcd).bind fun a b hab => ih.bind fun as bs hs => .ok (.cons hab hs)

theorem mapM_perm {f : γ → Result α} {cs ds : List γ} (h : cs.Perm ds) :
    Alike List.Perm (cs.mapM f) (ds.mapM f) := by
  induction h with
  | nil => exact .ok .nil
  | cons c _ ih =>
    rw [List.mapM_cons, List.mapM_cons]
    cases f c with
    | error e => exact .error
    | ok a => exact ih.bind fun as bs hs => .ok (hs.cons a)
  | swap c d rest =>
    simp only [List.mapM_cons]
    cases f c <;> cases f d <;> cases rest.mapM f <;> try exact .error
    exact .ok (.swap ..)
  | trans _ _ ih ih' => exact (ih.trans ih').imp fun _ _ ⟨_, h, h'⟩ => h.trans h'

theorem foldlM {P : γ → δ → Prop} {f : α → γ → Result α} {g : β → δ → Result β} {cs : List γ}
    {ds : List δ} (h : List.Forall₂ P cs ds)
    (hfg : ∀ a b c d, R a b → P c d → Alike R (f a c) (g b d)) {a : α} {b : β} (hab : R a b) :
    Alike R (cs.foldlM f a) (ds.foldlM g b) := by
  induction h generalizing a b with
  | nil => exact .ok hab
  | cons hcd _ ih =>
    rw [List.foldlM_cons, List.foldlM_cons]
    exact (hfg _ _ _ _ hab hcd).bind fun a b hab => ih hab

theorem foldlM_bind (f : γ → Result α) (g : β → α → Result β) (cs : List γ) (b : β) :
    Alike (· = ·) (cs.foldlM (fun b c => f c >>= g b) b)
      (cs.mapM f >>= fun as => as.foldlM g b) := by
  induction cs generalizing b with
  | nil => exact .refl (fun _ => rfl) _
  | cons c cs ih =>
    rw [List.foldlM_cons, List.mapM_cons]
    cases f c with
    | error e => exact .error
    | ok a =>
      show Alike _ (g b a >>= fun b => cs.foldlM (fun b c => f c >>= g b) b)
        ((cs.mapM f >>= fun as => pure (a :: as)) >>= fun as => as.foldlM g b)
      simp only [bind_assoc, pure_bind, List.foldlM_cons]
      cases g b a with
      | error e => cases cs.mapM f <;> exact .error
      | ok b => exact ih b

end Result.Alike

theorem rel_getElem? {α β : Type} {R : α → β → Prop} {as : List α} {bs : List β}
    (h : List.Forall₂ R as bs) (i : Nat) : Option.Rel R as[i]? bs[i]? := by
  induction h generalizing i with
  | nil => exact .none
  | cons hab _ ih =>
    cases i with
    | zero => exact .some hab
    | succ i => simpa using ih i

theorem rel_getD {α β : Type} {R : α → β → Prop} {a : Option α} {b : Option β}
    (h : Option.Rel R a b) {x : α} {y : β} (hxy : R x y) : R (a.getD x) (b.getD y) := by
  cases h with
  | none => exact hxy
  | some hab => exact hab

end Orchestration
