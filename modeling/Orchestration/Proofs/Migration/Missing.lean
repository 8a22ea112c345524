import Orchestration.Proofs.Migration.ReadOrder

/-!
Parameters without a value. A property whose rules come upon one is read as it is, but the properties
that take parts out of another one are read before it, and what they are as they are may itself
depend on such a parameter. Main statement: nothing else makes a property unreadable.
-/

namespace Orchestration

def Result.IsMissing {α : Type} (r : Result α) : Prop :=
  ∃ name, r = .error (.bare (.parameterMissing name))

namespace Migration

open Relation (ReflTransGen)
open Result (IsMissing)

variable {α β : Type} {m : Migration} {p : Properties} {key : String} {tables : Tables}

def Spares (x : Reading α) : Prop := ∀ tables, ¬IsMissing (x.run tables).1

namespace Spares

theorem pure (a : α) : Spares (pure a : Reading α) := fun _ h => nomatch h

theorem lift {r : Result α} (h : ¬IsMissing r) : Spares (liftM r : Reading α) := fun _ => h

theorem bind {x : Reading α} {f : α → Reading β} (hx : Spares x) (hf : ∀ a, Spares (f a)) :
    Spares (x >>= f) := by
  intro tables h
  cases hrun : x.run tables with
  | mk outcome mid =>
    cases outcome with
    | ok a =>
      rw [Run.bind_ok hrun] at h
      exact hf a mid h
    | error e =>
      rw [Run.bind_error hrun] at h
      obtain ⟨name, he⟩ := h
      exact hx tables ⟨name, by rw [hrun, Except.error.inj he]⟩

theorem forM {f : α → Reading Unit} {as : List α} (h : ∀ a ∈ as, Spares (f a)) :
    Spares (as.forM f) := by
  induction as with
  | nil => exact pure ()
  | cons a as ih =>
    exact (h a (List.mem_cons_self ..)).bind fun _ => ih fun b hb => h b (List.mem_cons_of_mem _ hb)

theorem guarded {x : Reading α} (h : Spares x) (key : String) : Spares (.guarded key x) :=
  fun tables => h { tables with inProgress := key :: tables.inProgress }

end Spares

theorem spares_load (h : ¬IsMissing (p.value key)) : Spares (load p key) := by
  intro tables
  rw [load_run, loaded]
  cases tables.residue.get? key with
  | none => exact h
  | some v => rintro ⟨_, ⟨⟩⟩

theorem spares_applyOrLoad (h : ¬IsMissing (p.value key)) : Spares (applyOrLoad m p key) := by
  intro tables
  rw [applyOrLoad_run]
  cases (applyRules m p key).run tables with
  | mk outcome after =>
    cases outcome with
    | ok v => exact nofun
    | error e =>
      cases e with
      | bare cause =>
        cases cause with
        | parameterMissing name =>
          have hload := spares_load h after
          rwa [load_run] at hload
        | _ => exact nofun
      | _ => exact nofun

theorem spares_retrieve (h : ¬IsMissing (p.value key)) {new : Reading (Option Value)}
    (hnew : Spares new) : Spares (retrieve p key new) := by
  intro tables
  rw [retrieve_run]
  split
  · exact nofun
  · have hload := spares_load h tables
    rwa [load_run] at hload
  · exact hnew tables

/-- The properties that are read before a property are those that take parts out of it, directly or
through each other. -/
theorem spares_migrateWith (fuel : Nat)
    (h : ∀ other, ReflTransGen m.Moves other key → ¬IsMissing (p.value other)) :
    Spares (migrateWith m p fuel key) := by
  induction fuel generalizing key with
  | zero => exact spares_retrieve (h key .refl) (spares_load (h key .refl))
  | succ fuel ih =>
    have hmovers : Spares ((m.movedFrom key).forM fun other => discard (migrateWith m p fuel other)) :=
      .forM fun other ho => (ih fun first hfirst => h first (hfirst.tail ho)).bind fun _ => .pure ()
    have hnew := hmovers.bind fun _ => spares_applyOrLoad (m := m) (h key .refl)
    exact spares_retrieve (h key .refl) (hnew.guarded key)

end Migration

namespace PropertyView

open Migration (Spares)
open Relation (ReflTransGen)
open Result (IsMissing)

variable {view : PropertyView}

/-- Whatever was read before, a property can be read without the values of parameters on which only
others depend, as long as those that take parts out of it, directly or through each other, can. -/
theorem not_isMissing_read (view : PropertyView) (key : String)
    (hkey : ¬IsMissing (view.properties.value key))
    (hmovers : ∀ m ∈ view.migration, ∀ other, ReflTransGen m.Moves other key →
      ¬IsMissing (view.properties.value other)) (earlier : List Request) :
    ¬IsMissing ((view.read key).run ((view.answers earlier).run .empty).2).1 := by
  suffices h : Spares (view.read key) from h _
  unfold read
  cases hv : view.migration with
  | none => exact .lift hkey
  | some m =>
    dsimp only
    split
    · exact .pure none
    · split
      · exact (Migration.spares_migrateWith _ (hmovers m hv)).bind fun v => .pure _
      · exact .lift hkey

/-- A network that is to be read out of a property without a value is read as it is, also once that
property was asked for in vain. -/
theorem not_isMissing_read_network :
    let raw := .map [("type", .text "Server"), ("properties", .map [("network", .text "n"),
      ("old", .map [("net", .map [("get_param", .text "unset")])])])]
    ∃ t stack d p m, Template.ofValue (.map [("heat_template_version", .text "2016-10-14"),
        ("parameters", .map [("unset", .map [("type", .text "string")])]),
        ("resources", .map [("server", raw)])]) = .ok t ∧
      Stack.make ⟨"s"⟩ "s" t [] (StaticResources.toResources []) = .ok stack ∧
      t.resourceDefinition ⟨"s"⟩ "server" raw = .ok d ∧
      Properties.ofSnippet stack d.properties = .ok p ∧
      Migration.ofDeclarations
        [{ kind := .replace, path := ["network"], topPath := some ["old", "net"] }] true = .ok m ∧
      p.value "old" = .error (.bare (.parameterMissing "unset")) ∧
      ¬IsMissing (((PropertyView.mk p (some m)).read "network").run
        (((PropertyView.mk p (some m)).answers [.property "old"]).run .empty).2).1 := by
  intro raw
  refine ⟨_, _, _, _, ⟨[⟨["network"], .replace (.top ["old", "net"] none), by decide⟩], true⟩,
    rfl, rfl, rfl, rfl, congrArg Except.ok (Migration.ofRules_of_pairwise (by decide) true), rfl, ?_⟩
  have hnone : Migration.movedFrom
      ⟨[⟨["network"], .replace (.top ["old", "net"] none), by decide⟩], true⟩ "network" = [] := by
    decide
  refine not_isMissing_read _ "network" (fun ⟨_, h⟩ => nomatch h) ?_ [.property "old"]
  rintro m ⟨⟩ other hother
  rcases Relation.ReflTransGen.cases_tail hother with heq | ⟨first, -, hfirst⟩
  · rw [← heq]
    exact fun ⟨_, h⟩ => nomatch h
  · exact absurd (show first ∈ [] from hnone ▸ hfirst) List.not_mem_nil

/-- A property with a value cannot be read when one that takes a part out of it lacks the value of a
parameter. -/
theorem isMissing_read_old :
    let raw := .map [("type", .text "Server"), ("properties", .map [
      ("network", .map [("get_param", .text "unset")]), ("old", .map [("net", .text "n")])])]
    ∃ t stack d p m, Template.ofValue (.map [("heat_template_version", .text "2016-10-14"),
        ("parameters", .map [("unset", .map [("type", .text "string")])]),
        ("resources", .map [("server", raw)])]) = .ok t ∧
      Stack.make ⟨"s"⟩ "s" t [] (StaticResources.toResources []) = .ok stack ∧
      t.resourceDefinition ⟨"s"⟩ "server" raw = .ok d ∧
      Properties.ofSnippet stack d.properties = .ok p ∧
      Migration.ofDeclarations
        [{ kind := .replace, path := ["network"], topPath := some ["old", "net"] }] true = .ok m ∧
      p.value "old" = .ok (some (.map [("net", .text "n")])) ∧
      ((PropertyView.mk p (some m)).read "old").run .empty =
        (.error (.bare (.parameterMissing "unset")), .empty) := by
  intro raw
  refine ⟨_, _, _, _, ⟨[⟨["network"], .replace (.top ["old", "net"] none), by decide⟩], true⟩,
    rfl, rfl, rfl, rfl, congrArg Except.ok (Migration.ofRules_of_pairwise (by decide) true), rfl, ?_⟩
  with_unfolding_all rfl

end PropertyView

end Orchestration
