import Orchestration.Proofs.Equality.Sections
import Orchestration.Proofs.Values.Fingerprints

namespace Orchestration

namespace ResourceDefinition

variable {d : ResourceDefinition}

theorem mem_canonicalSection (key : String) {written : Option Snippet} {s : Snippet}
    (h : s ∈ written) : (key, s.canonical) ∈ canonicalSection key written :=
  List.mem_map.2 ⟨s, Option.mem_toList.2 h, rfl⟩

theorem mem_hot (part : Part) {s : Snippet} (h : s ∈ d.part part) :
    ∃ key fields, d.hot = .map fields ∧ (key, s.canonical) ∈ fields := by
  cases part with
  | properties =>
    have hmem : _ ∈ canonicalSection "properties" d.properties := mem_canonicalSection _ h
    exact ⟨"properties", _, rfl, by simp [hmem]⟩
  | metadata =>
    have hmem : _ ∈ canonicalSection "metadata" d.metadata := mem_canonicalSection _ h
    exact ⟨"metadata", _, rfl, by simp [hmem]⟩
  | updatePolicy =>
    have hmem : _ ∈ canonicalSection "update_policy" d.updatePolicy := mem_canonicalSection _ h
    exact ⟨"update_policy", _, rfl, by simp [hmem]⟩

theorem tidy_part (hd : d.hot.Tidy) (part : Part) {s : Snippet} (h : s ∈ d.part part) :
    s.canonical.Tidy := by
  obtain ⟨key, fields, hhot, hmem⟩ := mem_hot part h
  rw [hhot] at hd
  exact (Value.tidy_map_iff.1 hd).2 _ hmem

theorem nanFree_part (hd : d.hot.Tidy) (h : d.hot.NaNFree) (part : Part) {s : Snippet}
    (hs : s ∈ d.part part) : s.canonical.NaNFree := by
  obtain ⟨key, fields, hhot, hmem⟩ := mem_hot part hs
  rw [hhot] at hd h
  exact (Value.nanFree_map_iff hd.nodup).1 h _ hmem

end ResourceDefinition

namespace Diff

variable {d : ResourceDefinition}

theorem isChanged_eq_false_iff {diff : Diff} : diff.isChanged = false ↔
    ∀ part, Option.Rel (fun s s' => s.equal s' = true) (diff.old.part part)
      (diff.new.part part) := by
  refine ⟨fun h part => part_of_not_isChanged h part, fun h => ?_⟩
  rw [isChanged, Bool.or_eq_false_iff, Bool.or_eq_false_iff]
  exact ⟨⟨differs_eq_false_iff.2 (h .properties), differs_eq_false_iff.2 (h .metadata)⟩,
    differs_eq_false_iff.2 (h .updatePolicy)⟩

theorem isChanged_self_iff (hd : d.hot.Tidy) : (Diff.mk d d).isChanged = false ↔
    ∀ part, ∀ s ∈ d.part part, s.canonical.NaNFree := by
  refine isChanged_eq_false_iff.trans (forall_congr' fun part => ?_)
  have htidy := @ResourceDefinition.tidy_part d hd part
  generalize d.part part = written at htidy
  constructor
  · rintro h s rfl
    cases h with
    | some h => exact (Value.equal_self_iff (htidy rfl)).1 h
  · intro h
    cases written with
    | none => exact .none
    | some s => exact .some ((Value.equal_self_iff (htidy rfl)).2 (h s rfl))

end Diff

open Digest (Bytes)

/-- Equality is an equivalence of the values without NaN, and equal values have one fingerprint
unless zeros in them differ in their signs. So are definitions known again by what they are written
as, and a diff of a definition with itself sees a change exactly where a NaN is in a part of it. -/
theorem ResourceDefinition.known_by_hot (hash : Bytes → UInt64) :
    (∀ v : Value, v.Tidy → (v.equal v = true ↔ v.NaNFree)) ∧
    (∀ v w : Value, v.Tidy → w.Tidy → v.equal w = true → w.equal v = true) ∧
    (∀ u v w : Value, u.Tidy → v.Tidy → u.equal v = true → v.equal w = true →
      u.equal w = true) ∧
    (∀ v w : Value, v.Tidy → w.Tidy → v.equal w = true → v.ZerosAgree w →
      v.fingerprintWith hash = w.fingerprintWith hash) ∧
    ∀ d : ResourceDefinition, d.hot.Tidy →
      (d.equal d = true ↔ d.hot.NaNFree) ∧
      (∀ d' : ResourceDefinition, d'.hot.Tidy → d.equal d' = true → d.hot.ZerosAgree d'.hot →
        d.hot.fingerprintWith hash = d'.hot.fingerprintWith hash) ∧
      ((Diff.mk d d).isChanged = false ↔ ∀ part, ∀ s ∈ d.part part, s.canonical.NaNFree) := by
  refine ⟨fun v => Value.equal_self_iff, fun v w => Value.equal_symm,
    fun u v w => Value.equal_trans,
    fun v w hv hw => Value.fingerprintWith_eq_of_equal hash hv hw, fun d hd => ?_⟩
  exact ⟨Value.equal_self_iff hd,
    fun d' hd' => Value.fingerprintWith_eq_of_equal hash hd hd', Diff.isChanged_self_iff hd⟩

namespace ResourceDefinition

/-- A definition with one property, a number, that is frozen with a text for it. -/
def FrozenWith (number : String) (f : ResourceDefinition) : Prop :=
  ∃ t stack s, Template.ofValue (.map [("heat_template_version", .text "2016-10-14"),
      ("parameters", .map [("n", .map [("type", .text "number")])])]) = .ok t ∧
    Stack.make ⟨"s"⟩ "s" t [("n", .text number)] (StaticResources.toResources []) = .ok stack ∧
    t.snippet .ordinary ⟨"s"⟩ (.map [("a", .map [("get_param", .text "n")])]) = .ok s ∧
    (((withProperties { name := "r", type := "T" } s).freeze stack {}).run
      (stack.memoAfter [])).1 = .ok f

theorem known_by_hot_of_numbers :
    let d (properties : Fields Value) : ResourceDefinition :=
      withProperties { name := "r", type := "T" } (.ofValue (.map properties))
    let properties : Fields Value := [("a", .decimal ⟨0x4004000000000000⟩), ("b", .null)]
    (∃ f, FrozenWith "2.5" f ∧ f.hot.NaNFree ∧ f.equal f = true ∧
      (Diff.mk f f).isChanged = false) ∧
    (d properties).hot.ZerosAgree (d properties.reverse).hot ∧
    (d properties).equal (d properties.reverse) = true ∧
    (d properties.reverse).hot.equal (d properties).hot = true ∧
    (d properties).hot.fingerprint = (d properties.reverse).hot.fingerprint := by
  intro d properties
  obtain ⟨-, hsymm, -, -, hdefinition⟩ := known_by_hot Digest.SipHash.hash
  have hfrozen {f : ResourceDefinition} (hf : f.hot.Tidy) (h : f.equal f = true) :
      f.hot.NaNFree ∧ f.equal f = true ∧ (Diff.mk f f).isChanged = false := by
    obtain ⟨hself, -, hchanged⟩ := hdefinition f hf
    exact ⟨hself.1 h, h, hchanged.2 fun part _ hs => nanFree_part hf (hself.1 h) part hs⟩
  have hzeros : (d properties).hot.ZerosAgree (d properties.reverse).hot :=
    Value.zerosAgree_unsigned (d properties).hot (d properties.reverse).hot
  have hequal : (d properties).equal (d properties.reverse) = true := rfl
  have hreverse := (hdefinition (d properties) rfl).2.1 (d properties.reverse) rfl hequal hzeros
  refine ⟨⟨_, ⟨_, _, _, rfl, rfl, rfl, rfl⟩, hfrozen rfl ?_⟩, hzeros, hequal,
    hsymm _ _ rfl rfl hequal, hreverse⟩
  decide +kernel

/-- A definition that is frozen with a NaN neither equals itself nor stays as it is, and equal ones
that are frozen with the two zeros have two fingerprints. -/
theorem not_known_by_hot :
    (∃ f, FrozenWith "nan" f ∧ f.equal f = false ∧ (Diff.mk f f).isChanged = true) ∧
    ∃ f f', FrozenWith "0.0" f ∧ FrozenWith "-0.0" f' ∧ f.equal f' = true ∧
      f.hot.fingerprint ≠ f'.hot.fingerprint := by
  refine ⟨⟨_, ⟨_, _, _, rfl, rfl, rfl, rfl⟩, rfl, rfl⟩, ?_⟩
  refine ⟨_, _, ⟨_, _, _, rfl, rfl, rfl, rfl⟩, ⟨_, _, _, rfl, rfl, rfl, rfl⟩, rfl, ?_⟩
  decide +kernel

end ResourceDefinition

end Orchestration
