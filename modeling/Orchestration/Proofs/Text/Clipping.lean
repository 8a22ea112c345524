import Mathlib.Order.Bounds.Basic
import Orchestration.Json.Writer
import Orchestration.Proofs.Text.Widths

namespace Orchestration

namespace Text

variable {s t rest : String} {bytes n : Nat}

/-- Going back byte by byte finds the last of the boundaries that are not behind byte `n`. -/
theorem isGreatest_lastBoundary (s : String) (n : Nat) :
    IsGreatest {m | m ≤ n ∧ String.Pos.Raw.IsValid s ⟨m⟩} (lastBoundary s n).offset.byteIdx := by
  induction n with
  | zero => exact ⟨⟨le_rfl, (lastBoundary s 0).isValid⟩, fun m hm => hm.1⟩
  | succ n ih =>
    rw [lastBoundary]
    split
    · next hvalid => exact ⟨⟨le_rfl, hvalid⟩, fun m hm => hm.1⟩
    · next hinside =>
      obtain ⟨⟨hle, hvalid⟩, hgreatest⟩ := ih
      refine ⟨⟨hle.trans n.le_succ, hvalid⟩, ?_⟩
      rintro m ⟨hm, hmvalid⟩
      have hne : m ≠ n + 1 := by
        rintro rfl
        exact hinside hmvalid
      exact hgreatest ⟨by omega, hmvalid⟩

theorem lastBoundary_le (s : String) (n : Nat) : (lastBoundary s n).offset.byteIdx ≤ n :=
  (isGreatest_lastBoundary s n).1.1

theorem lt_lastBoundary_add_four (h : n < s.utf8ByteSize) :
    n < (lastBoundary s n).offset.byteIdx + 4 := by
  have hle := lastBoundary_le s n
  have hend : lastBoundary s n ≠ s.endPos := by
    intro heq
    have hsize : (lastBoundary s n).offset.byteIdx = s.utf8ByteSize := by simp [heq]
    omega
  have hnext : n < ((lastBoundary s n).next hend).offset.byteIdx := by
    -- or the search would have stopped there
    by_contra hnot
    have hback := (isGreatest_lastBoundary s n).2 ⟨Nat.le_of_not_lt hnot, String.Pos.isValid _⟩
    have hforth := String.Pos.byteIdx_offset_next (lastBoundary s n) hend
    have hpos := ((lastBoundary s n).get hend).utf8Size_pos
    omega
  have hfour := ((lastBoundary s n).get hend).utf8Size_le_four
  rw [String.Pos.byteIdx_offset_next] at hnext
  omega

theorem splits_extract (p : s.Pos) : p.Splits (s.extract s.startPos p) (s.extract p s.endPos) := by
  have hsplits := p.splits
  have hleft : s.extract s.startPos p = (s.sliceTo p).copy := by
    simp [← String.toByteArray_inj, hsplits.toByteArray_left_eq]
  have hright : s.extract p s.endPos = (s.sliceFrom p).copy := by
    simp [← String.toByteArray_inj, hsplits.toByteArray_right_eq]
  rwa [hleft, hright]

theorem clip_of_le (h : s.utf8ByteSize ≤ bytes) : clip bytes s = s := if_pos h

theorem splits_clip (h : bytes < s.utf8ByteSize) :
    (lastBoundary s bytes).Splits (clip bytes s) (s.extract (lastBoundary s bytes) s.endPos) := by
  rw [clip, if_neg (Nat.not_le_of_lt h)]
  apply splits_extract

theorem utf8ByteSize_clip (h : bytes < s.utf8ByteSize) :
    (clip bytes s).utf8ByteSize = (lastBoundary s bytes).offset.byteIdx := by
  simp [(splits_clip h).offset_eq_rawEndPos]

theorem exists_eq_clip_append (bytes : Nat) (s : String) : ∃ rest, s = clip bytes s ++ rest := by
  obtain h | h := Nat.lt_or_ge bytes s.utf8ByteSize
  · exact ⟨_, (splits_clip h).eq_append⟩
  · exact ⟨"", by simp [clip_of_le h]⟩

theorem utf8ByteSize_clip_le (bytes : Nat) (s : String) : (clip bytes s).utf8ByteSize ≤ bytes := by
  obtain h | h := Nat.lt_or_ge bytes s.utf8ByteSize
  · rw [utf8ByteSize_clip h]
    exact lastBoundary_le s bytes
  · rwa [clip_of_le h]

theorem exists_append_of_utf8ByteSize_le {t' rest' : String} (hs : t ++ rest = t' ++ rest')
    (h : t.utf8ByteSize ≤ t'.utf8ByteSize) : ∃ more, t' = t ++ more := by
  have hlists : t.toList ++ rest.toList = t'.toList ++ rest'.toList := by
    simpa using congrArg String.toList hs
  rw [← width_toList, ← width_toList] at h
  obtain ⟨more, hmore⟩ := prefix_of_width_le (List.prefix_append t.toList rest.toList)
    (hlists ▸ List.prefix_append t'.toList rest'.toList) h
  exact ⟨String.ofList more, by simp [← String.toList_inj, hmore]⟩

theorem exists_clip_eq_append (hs : s = t ++ rest) (hfits : t.utf8ByteSize ≤ bytes) :
    ∃ more, clip bytes s = t ++ more := by
  obtain h | h := Nat.lt_or_ge bytes s.utf8ByteSize
  · have hvalid : String.Pos.Raw.IsValid s ⟨t.utf8ByteSize⟩ :=
      String.Pos.Raw.isValid_iff_exists_append.2 ⟨t, rest, hs, rfl⟩
    have hsize : t.utf8ByteSize ≤ (clip bytes s).utf8ByteSize := by
      rw [utf8ByteSize_clip h]
      exact (isGreatest_lastBoundary s bytes).2 ⟨hfits, hvalid⟩
    obtain ⟨rest', hrest'⟩ := exists_eq_clip_append bytes s
    exact exists_append_of_utf8ByteSize_le (hs.symm.trans hrest') hsize
  · exact ⟨rest, by rw [clip_of_le h, hs]⟩

theorem exists_back (h : n < s.utf8ByteSize) : ∃ back ≤ 3,
    (lastBoundary s n).offset.byteIdx = n - back ∧
      ∀ k < back, ¬String.Pos.Raw.IsValid s ⟨n - k⟩ := by
  have hle := lastBoundary_le s n
  have hlt := lt_lastBoundary_add_four h
  refine ⟨n - (lastBoundary s n).offset.byteIdx, by omega, by omega, fun k hk hvalid => ?_⟩
  have hback := (isGreatest_lastBoundary s n).2 ⟨Nat.sub_le n k, hvalid⟩
  omega

end Text

open Text (lastBoundary)

/-- The short text of a value is a beginning of its sorted JSON of at most 200 bytes that every
beginning of at most 200 bytes is a beginning of. It is all of a sorted JSON that fits. Otherwise
the bytes are tried from byte 200 backwards, one that is a boundary between characters is among the
first four, and the short text is the bytes in front of it. -/
theorem Value.shortText_longest (v : Value) :
    (∃ rest, v.sortedJson = v.shortText ++ rest) ∧
    v.shortText.utf8ByteSize ≤ 200 ∧
    (∀ t rest, v.sortedJson = t ++ rest → t.utf8ByteSize ≤ 200 →
      ∃ more, v.shortText = t ++ more) ∧
    (v.sortedJson.utf8ByteSize ≤ 200 → v.shortText = v.sortedJson) ∧
    (200 < v.sortedJson.utf8ByteSize → ∃ back ≤ 3,
      (lastBoundary v.sortedJson 200).offset.byteIdx = 200 - back ∧
      String.Pos.Raw.IsValid v.sortedJson ⟨200 - back⟩ ∧
      (∀ k < back, ¬String.Pos.Raw.IsValid v.sortedJson ⟨200 - k⟩) ∧
      v.shortText.toByteArray = v.sortedJson.toByteArray.extract 0 (200 - back)) := by
  refine ⟨Text.exists_eq_clip_append _ _, Text.utf8ByteSize_clip_le _ _,
    fun t rest => Text.exists_clip_eq_append, Text.clip_of_le, fun h => ?_⟩
  obtain ⟨back, hback, hfound, htried⟩ := Text.exists_back h
  refine ⟨back, hback, hfound, ?_, htried, ?_⟩
  · rw [← hfound]
    exact (lastBoundary v.sortedJson 200).isValid
  · rw [← hfound]
    exact (Text.splits_clip h).toByteArray_left_eq

/-- Byte 200 is the last one inside a character of four bytes, which is left out. -/
theorem Value.shortText_longest_clefs :
    let v := Value.text (String.ofList (List.replicate 50 '𝄞'))
    200 < v.sortedJson.utf8ByteSize ∧ (lastBoundary v.sortedJson 200).offset.byteIdx = 197 ∧
      v.shortText = String.ofList ('"' :: List.replicate 49 '𝄞') := by
  intro v
  generalize ht : String.ofList ('"' :: List.replicate 49 '𝄞') = t
  have hjson : v.sortedJson = t ++ "𝄞\"" := by
    have hquote (s : String) : (Value.text s).sortedJson = String.ofList (Json.quote s) := rfl
    have hescape (k : Nat) : (List.replicate k '𝄞').flatMap Json.escape = List.replicate k '𝄞' := by
      induction k with
      | zero => rfl
      | succ k ih => rw [List.replicate_succ, List.flatMap_cons, ih]; rfl
    rw [hquote, Json.quote, String.toList_ofList, hescape, List.replicate_succ' (n := 49), ← ht,
      ← String.toList_inj, String.toList_append, String.toList_ofList, String.toList_ofList,
      List.cons_append, List.append_assoc, List.cons_append]
    rfl
  have hsize : t.utf8ByteSize = 197 := by
    have hclefs := Text.width_of_forall (s := List.replicate 49 '𝄞') (w := 4) fun c hc =>
      List.eq_of_mem_replicate hc ▸ rfl
    rw [← ht, ← Text.width, Text.width_cons, hclefs]
    rfl
  have hlong : v.sortedJson.utf8ByteSize = 202 := by
    rw [hjson, String.utf8ByteSize_append, hsize]
    rfl
  obtain ⟨⟨rest, hrest⟩, hfits, hlongest, -, hcut⟩ := shortText_longest v
  obtain ⟨back, -, hfound, -, -, hbytes⟩ := hcut (by omega)
  obtain ⟨more, hmore⟩ := hlongest t _ hjson (by omega)
  -- the next character takes four bytes, and three are left
  have hnil : more = "" := by
    rw [hjson, hmore, String.append_assoc, String.append_right_inj] at hrest
    rw [hmore, String.utf8ByteSize_append, hsize] at hfits
    have hlists : ['𝄞', '"'] = more.toList ++ rest.toList := by
      simpa using congrArg String.toList hrest
    cases hchars : more.toList with
    | nil => simpa using hchars
    | cons c cs =>
      rw [hchars] at hlists
      obtain ⟨rfl, -⟩ := List.cons.inj hlists
      rw [← Text.width_toList more, hchars, Text.width_cons, show '𝄞'.utf8Size = 4 from rfl]
        at hfits
      omega
  have hback : 197 = min (200 - back) 202 := by
    simpa [hmore, hnil, hsize, hlong] using congrArg ByteArray.size hbytes
  exact ⟨by omega, by omega, by rw [hmore, hnil, String.append_empty]⟩

end Orchestration
