import LoxLexer.Text.Location

/-!
# Texts as bytes

Offsets count the bytes of the UTF-8 encoding. `Holds` says what stands between two offsets, both of
them between characters, and `lineFeeds` counts the bytes there that end lines.
-/

namespace LoxLexer

/-! ## Sizes -/

theorem utf8ByteSize_ofList (text : List Char) :
    (String.ofList text).utf8ByteSize = byteSize text := by
  induction text with
  | nil => rfl
  | cons c cs ih =>
      rw [← List.singleton_append, String.ofList_append, String.utf8ByteSize_append, ih,
        ← String.singleton_eq_ofList, String.utf8ByteSize_singleton]
      simp

@[simp] theorem byteSize_toList (s : String) : byteSize s.toList = s.utf8ByteSize := by
  rw [← utf8ByteSize_ofList, String.ofList_toList]

theorem offset_after_toList (source : String) :
    (Location.start.after source.toList).offset = source.utf8ByteSize := by
  simp [Location.after, Location.start]

theorem extract_of_size_le {bytes : ByteArray} {n : Nat} (h : bytes.size ≤ n) :
    bytes.extract 0 n = bytes := by
  rw [← Nat.max_eq_left h, ByteArray.extract_zero_max_size]

/-- What bytes are read as, they are the encoding of. -/
theorem toByteArray_of_fromUTF8? {bytes : ByteArray} {text : String}
    (h : String.fromUTF8? bytes = some text) : text.toByteArray = bytes := by
  unfold String.fromUTF8? at h
  split at h
  · cases h
    rfl
  · cases h

theorem byteSize_pos {text : List Char} (h : text ≠ []) : 0 < byteSize text := by
  cases text with
  | nil => exact absurd rfl h
  | cons c cs =>
      have := c.utf8Size_pos
      rw [byteSize_cons]
      omega

/-! ## Parts of a source -/

/-- The source's bytes from one offset to another are those of the text, and both offsets stand
between characters. -/
structure Holds (source : String) (start stop : Nat) (text : String) : Prop where
  start_valid : String.Pos.Raw.IsValid source ⟨start⟩
  stop_valid : String.Pos.Raw.IsValid source ⟨stop⟩
  start_le_stop : start ≤ stop
  bytes : source.toByteArray.extract start stop = text.toByteArray

theorem Holds.of_append (before text after : String) :
    Holds (before ++ text ++ after) before.utf8ByteSize (before ++ text).utf8ByteSize text := by
  refine ⟨?_, ?_, ?_, ?_⟩
  · rw [String.append_assoc]
    exact String.Pos.Raw.isValid_rawEndPos.append_right _
  · exact String.Pos.Raw.isValid_rawEndPos.append_right _
  · rw [String.utf8ByteSize_append]
    omega
  · rw [String.append_assoc, String.toByteArray_append, String.toByteArray_append,
      String.utf8ByteSize_append]
    exact (ByteArray.extract_append_size_add' (i := 0) String.size_toByteArray.symm).trans
      (ByteArray.extract_append_eq_left String.size_toByteArray.symm)

theorem Holds.of_toList {source : String} {before text after : List Char}
    (h : source.toList = before ++ text ++ after) :
    Holds source (byteSize before) (byteSize (before ++ text)) (.ofList text) := by
  have hsource : source = .ofList before ++ .ofList text ++ .ofList after := by
    rw [← String.ofList_append, ← String.ofList_append, ← h, String.ofList_toList]
  rw [hsource, ← utf8ByteSize_ofList, ← utf8ByteSize_ofList, String.ofList_append]
  exact .of_append _ _ _

theorem Holds.of_toList_end {source : String} {before text : List Char}
    (h : source.toList = before ++ text) :
    Holds source (byteSize before) source.utf8ByteSize (.ofList text) := by
  have hholds := Holds.of_toList (h.trans (List.append_nil _).symm)
  rwa [← h, byteSize_toList] at hholds

/-! ## Line feeds -/

/-- How many of the source's bytes from one offset to another are line feeds. -/
def lineFeeds (source : String) (start stop : Nat) : Nat :=
  (source.toByteArray.extract start stop).data.toList.count 10

@[simp] theorem lineFeeds_self (source : String) (offset : Nat) :
    lineFeeds source offset offset = 0 := by
  simp [lineFeeds]

theorem lineFeeds_le (source : String) (start stop : Nat) :
    lineFeeds source start stop ≤ stop - start := by
  refine Nat.le_trans List.count_le_length ?_
  rw [Array.length_toList, ByteArray.size_data, ByteArray.size_extract]
  omega

theorem ten_eq_ofNat_iff {n : Nat} : (10 : UInt8) = UInt8.ofNat n ↔ n % 256 = 10 := by
  rw [← UInt8.toNat_inj, UInt8.toNat_ofNat', eq_comm]
  rfl

/-- Only the line feed has the byte of the line feed in its encoding. -/
theorem count_utf8EncodeChar (c : Char) :
    (String.utf8EncodeChar c).count 10 = if c = '\n' then 1 else 0 := by
  by_cases hc : c = '\n'
  · subst hc
    decide
  · have hval : c.val.toNat ≠ 10 := fun h => hc (Char.ext (UInt32.toNat_inj.1 h))
    rw [if_neg hc, List.count_eq_zero]
    intro hmem
    -- The bytes of longer encodings are at least 128; a short one is the character itself.
    simp only [String.utf8EncodeChar] at hmem
    split at hmem
    · simp only [List.mem_singleton, ten_eq_ofNat_iff] at hmem
      omega
    · split at hmem
      · simp only [List.mem_cons, List.not_mem_nil, or_false, ten_eq_ofNat_iff] at hmem
        omega
      · split at hmem
        all_goals
          simp only [List.mem_cons, List.not_mem_nil, or_false, ten_eq_ofNat_iff] at hmem
          omega

theorem count_utf8Encode (text : List Char) :
    text.utf8Encode.data.toList.count 10 = text.count '\n' := by
  induction text with
  | nil => rfl
  | cons c cs ih =>
      rw [List.utf8Encode_cons, ByteArray.data_append, Array.toList_append, List.count_append, ih,
        List.utf8Encode_singleton, List.data_toByteArray, count_utf8EncodeChar, List.count_cons]
      simp [Nat.add_comm]

theorem Holds.lineFeeds_eq {source text : String} {start stop : Nat}
    (h : Holds source start stop text) : lineFeeds source start stop = text.toList.count '\n' := by
  rw [lineFeeds, h.bytes, ← count_utf8Encode, String.utf8Encode_toList]

theorem lineFeeds_of_toList {source : String} {before text after : List Char}
    (h : source.toList = before ++ text ++ after) :
    lineFeeds source (byteSize before) (byteSize (before ++ text)) = text.count '\n' := by
  rw [(Holds.of_toList h).lineFeeds_eq, String.toList_ofList]

theorem lineFeeds_front {source : String} {text after : List Char}
    (h : source.toList = text ++ after) :
    lineFeeds source 0 (byteSize text) = text.count '\n' :=
  @lineFeeds_of_toList source [] text after h

theorem count_le_byteSize (text : List Char) : text.count '\n' ≤ byteSize text := by
  induction text with
  | nil => exact Nat.le_refl 0
  | cons c cs ih =>
      have hpos := c.utf8Size_pos
      rw [List.count_cons, byteSize_cons]
      split <;> omega

end LoxLexer
