import Orchestration.Function.Loop
import Orchestration.Proofs.Values.Writing

namespace Orchestration

namespace Value

mutual

def keysApart (f : String → String) : Value → Bool
  | .scalar _ => true
  | .list items => itemsKeysApart f items
  | .map fields => decide (fields.map fun e => f e.1).Nodup && fieldsKeysApart f fields

def itemsKeysApart (f : String → String) : List Value → Bool
  | [] => true
  | v :: vs => v.keysApart f && itemsKeysApart f vs

def fieldsKeysApart (f : String → String) : List (String × Value) → Bool
  | [] => true
  | (_, v) :: rest => v.keysApart f && fieldsKeysApart f rest

end

end Value

namespace Loop

open Result (Alike)

variable {function : String} {v w : Value} {m m' : Fields Value} {ps : List Text.Placeholder}

theorem copyFields_eq (ps : List Text.Placeholder) (fields : Fields Value) :
    copyFields ps fields = fields.map fun e => (write ps e.1, copy ps e.2) := by
  induction fields with
  | nil => rfl
  | cons e rest ih => exact congrArg _ ih

theorem copy_map (h : (m.map fun e => write ps e.1).Nodup) :
    copy ps (.map m) = .map (m.map fun e => (write ps e.1, copy ps e.2)) := by
  have hkeys : (Fields.keys ([] ++ m.map fun e => (write ps e.1, copy ps e.2))).Nodup := by
    simpa [Fields.keys, Function.comp_def] using h
  rw [copy, copyFields_eq, Fields.ofList, Fields.extend_of_nodup hkeys, List.nil_append]

mutual

theorem copy_alike : ∀ v w : Value, v.keysApart (write ps) = true → v.Alike w →
    (copy ps v).Alike (copy ps w)
  | .scalar s, w, _, h => by
    rw [h.eq_scalar]
    exact .refl _
  | .list items, w, hapart, h => by
    obtain ⟨items', rfl, hitems⟩ := h.eq_list
    exact Value.Alike.list_iff.2 (copyItems_alike items items' hapart hitems)
  | .map m, w, hapart, h => by
    obtain ⟨m', rfl, hm⟩ := h.eq_map
    obtain ⟨n, hn, hperm⟩ := hm.exists_perm
    rw [Value.keysApart, Bool.and_eq_true, decide_eq_true_eq] at hapart
    obtain ⟨hkeys, hfields⟩ := hapart
    have hkeys_n : (n.map fun e => write ps e.1).Nodup := by
      have hwritten := congrArg (List.map (write ps)) (Fields.keys_eq hn)
      rw [Fields.keys, Fields.keys, List.map_map, List.map_map] at hwritten
      exact hwritten ▸ hkeys
    have hkeys_m' : (m'.map fun e => write ps e.1).Nodup := (hperm.map _).nodup_iff.1 hkeys_n
    rw [copy_map hkeys, copy_map hkeys_m']
    refine (Value.Alike.of_forall₂ (copyFields_alike m n hfields hn)).trans ?_
    exact .of_perm (hperm.map _) (by simpa [Fields.keys, Function.comp_def] using hkeys_n)

theorem copyItems_alike : ∀ items items' : List Value,
    Value.itemsKeysApart (write ps) items = true → List.Forall₂ Value.Alike items items' →
      List.Forall₂ Value.Alike (copyItems ps items) (copyItems ps items')
  | [], _, _, h => by
    cases h
    exact .nil
  | v :: vs, _, hapart, h => by
    obtain ⟨hv, hvs⟩ := Bool.and_eq_true_iff.1 hapart
    cases h with
    | cons h hrest => exact .cons (copy_alike v _ hv h) (copyItems_alike vs _ hvs hrest)

theorem copyFields_alike : ∀ m m' : List (String × Value),
    Value.fieldsKeysApart (write ps) m = true → List.Forall₂ (Fields.Entry Value.Alike) m m' →
      List.Forall₂ (Fields.Entry Value.Alike) (m.map fun e => (write ps e.1, copy ps e.2))
        (m'.map fun e => (write ps e.1, copy ps e.2))
  | [], _, _, h => by
    cases h
    exact .nil
  | (_, v) :: rest, _, hapart, h => by
    obtain ⟨hv, hrest⟩ := Bool.and_eq_true_iff.1 hapart
    cases h with
    | cons he h =>
      exact .cons ⟨congrArg (write ps) he.1, copy_alike v _ hv he.2⟩
        (copyFields_alike rest _ hrest h)

end

theorem ofEntry_alike (placeholder : String) (h : v.Alike w) :
    Alike (· = ·) (ofEntry function placeholder v) (ofEntry function placeholder w) := by
  cases h.cases with
  | scalar => exact .refl (fun _ => rfl) _
  | list hitems =>
    refine Alike.bind (R := List.Forall₂ (· = ·)) (Alike.mapM hitems fun a b hab => ?_)
      fun texts texts' heq => ?_
    · rw [hab.plain?]
      cases b.plain? with
      | none => exact .error
      | some text => exact .ok rfl
    · rw [List.forall₂_eq_eq_eq] at heq
      exact .ok (congrArg _ heq)
  | _ => exact .error

def chosen (function : String) (permutations : Bool) (loops : Fields Value) :
    Result (List (List Text.Placeholder)) := do
  let loops ← loops.mapM fun (placeholder, values) => ofEntry function placeholder values
  if permutations then pure (combinations loops)
    else match zipped? loops with
      | some chosen => pure chosen
      | none => fault (.call function .loopLengths)

theorem copies_eq (loops : Fields Value) (template : Value) (permutations : Bool) :
    copies function loops template permutations =
      (fun chosen => .list (chosen.map fun ps => copy ps template)) <$>
        chosen function permutations loops := by
  unfold copies chosen
  cases loops.mapM fun (placeholder, values) => ofEntry function placeholder values with
  | error e => rfl
  | ok loops =>
    cases permutations with
    | true => rfl
    | false =>
      dsimp only [bind, Except.bind]
      cases zipped? loops <;> rfl

theorem chosen_alike (permutations : Bool) (h : Value.Alike (.map m) (.map m'))
    (hkeys : m.keys = m'.keys) :
    Alike (· = ·) (chosen function permutations m) (chosen function permutations m') := by
  refine Alike.bind (R := List.Forall₂ (· = ·))
    (Alike.mapM (h.forall₂_of_keys_eq hkeys) fun e e' he => ?_) fun loops loops' heq => ?_
  · obtain ⟨hkey, hv⟩ := he
    show Alike _ (ofEntry function e.1 e.2) (ofEntry function e'.1 e'.2)
    exact hkey ▸ ofEntry_alike e.1 hv
  · rw [List.forall₂_eq_eq_eq] at heq
    exact heq ▸ .refl (fun _ => rfl) _

theorem copies_alike (permutations : Bool) (h : Value.Alike (.map m) (.map m'))
    (hkeys : m.keys = m'.keys) (hvw : v.Alike w)
    (hapart : v = w ∨ ∀ all, chosen function permutations m = .ok all →
      ∀ ps ∈ all, v.keysApart (write ps)) :
    Alike Value.Alike (copies function m v permutations) (copies function m' w permutations) := by
  rw [copies_eq, copies_eq]
  refine ((chosen_alike permutations h hkeys).and_left fun _ => id).map ?_
  rintro all _ ⟨hall, rfl⟩
  refine Value.Alike.list_iff.2 (List.forall₂_map_left_iff.2 (List.forall₂_map_right_iff.2
    (List.forall₂_same.2 fun ps hps => ?_)))
  obtain rfl | hapart := hapart
  · exact .refl _
  · exact copy_alike v w (hapart all hall ps hps) hvw

end Loop

end Orchestration
