import LoxLexer.Proofs.Bytes
import LoxLexer.Proofs.Grammar
import LoxLexer.Scan.Cursor

/-!
# Bytes seen as characters

A byte of an ASCII character is that character. The bytes of any other character look like none of
ASCII. So a run of bytes that pass a test for ASCII characters is a run of characters that do, and
it ends between two characters (`runEnd_eq`).
-/

namespace LoxLexer

/-! ## Bytes of a character -/

/-- The byte `b` belongs to the character `c`. -/
def Shows (b c : Char) : Prop := b = c ∧ c.toNat < 128 ∨ 128 ≤ b.toNat ∧ 128 ≤ c.toNat

theorem toNat_ofUInt8 (b : UInt8) : (Char.ofUInt8 b).toNat = b.toNat := rfl

theorem shows_of_mem {c : Char} {b : UInt8} (h : b ∈ String.utf8EncodeChar c) :
    Shows (Char.ofUInt8 b) c := by
  have hval : c.val.toNat = c.toNat := rfl
  simp only [String.utf8EncodeChar] at h
  split at h
  · -- One byte is the character itself.
    cases List.mem_singleton.1 h
    refine .inl ⟨Char.ext (UInt32.toNat_inj.1 ?_), by omega⟩
    change (UInt8.ofNat c.val.toNat).toNat = c.val.toNat
    rw [UInt8.toNat_ofNat']
    omega
  · refine .inr ⟨?_, by omega⟩
    rw [toNat_ofUInt8]
    split at h
    · simp only [List.mem_cons, List.not_mem_nil, or_false] at h
      rcases h with rfl | rfl <;> rw [UInt8.toNat_ofNat'] <;> omega
    · split at h
      · simp only [List.mem_cons, List.not_mem_nil, or_false] at h
        rcases h with rfl | rfl | rfl <;> rw [UInt8.toNat_ofNat'] <;> omega
      · simp only [List.mem_cons, List.not_mem_nil, or_false] at h
        rcases h with rfl | rfl | rfl | rfl <;> rw [UInt8.toNat_ofNat'] <;> omega

/-- A byte passes the test exactly if its character does. -/
def Bytewise (test : Char → Bool) : Prop := ∀ b c, Shows b c → test b = test c

namespace Bytewise

variable {test : Char → Bool}

theorem of_ascii (h : ∀ c, test c = true → c.toNat < 128) : Bytewise test := by
  intro b c hshows
  rcases hshows with ⟨rfl, _⟩ | ⟨hb, hc⟩
  · rfl
  · have hwide {d : Char} (hd : 128 ≤ d.toNat) : test d = false := by
      rw [← Bool.not_eq_true]
      intro htest
      exact absurd (h d htest) (Nat.not_lt.2 hd)
    rw [hwide hb, hwide hc]

theorem not (h : Bytewise test) : Bytewise fun c => !test c := by
  intro b c hshows
  exact congrArg Bool.not (h b c hshows)

theorem beq {d : Char} (hd : d.toNat < 128) : Bytewise (· == d) := by
  refine of_ascii fun c hc => ?_
  rw [beq_iff_eq.1 hc]
  exact hd

end Bytewise

theorem IsDigit.ascii {c : Char} (h : IsDigit c) : c.toNat < 128 :=
  Nat.lt_of_le_of_lt h.2 (by decide)

theorem IsLetter.ascii {c : Char} (h : IsLetter c) : c.toNat < 128 := by
  rcases h with ⟨_, h⟩ | ⟨_, h⟩ | rfl
  · exact Nat.lt_of_le_of_lt h (by decide)
  · exact Nat.lt_of_le_of_lt h (by decide)
  · decide

theorem Begins.ascii {c : Char} (h : Begins c) : c.toNat < 128 := by
  have hall : ∀ d ∈ specials, d.toNat < 128 := List.all_iff_forall_prop.1 (by decide)
  rcases h with h | h | rfl | h | h
  · exact hall c (List.mem_cons_of_mem _ (List.mem_append_left _ h))
  · exact hall c (List.mem_append_right _ h)
  · decide
  · exact h.ascii
  · exact h.ascii

/-- A byte begins a lexeme only if its character does. -/
theorem Shows.not_begins {b c : Char} (h : Shows b c) (hc : ¬Begins c) : ¬Begins b := by
  rcases h with ⟨rfl, _⟩ | ⟨hb, _⟩
  · exact hc
  · exact fun hbegins => Nat.not_lt.2 hb hbegins.ascii

theorem bytewise_isDigit : Bytewise Char.isDigit :=
  .of_ascii fun _ h => (isDigit_iff.1 h).ascii

theorem bytewise_isWordPart : Bytewise isWordPart :=
  .of_ascii fun _ h => (isWordPart_iff.1 h).elim IsLetter.ascii IsDigit.ascii

/-! ## The rest of a source -/

/-- From the location on, the source is the text. -/
def RestAt (source : String) (l : Location) (text : List Char) : Prop :=
  ∃ before, source.toList = before ++ text ∧ l.offset = byteSize before

namespace RestAt

variable {source : String} {l : Location} {text rest : List Char}

theorem after (h : RestAt source l (text ++ rest)) : RestAt source (l.after text) rest := by
  obtain ⟨before, hsource, hl⟩ := h
  refine ⟨before ++ text, by rw [hsource, List.append_assoc], ?_⟩
  rw [byteSize_append, ← hl]
  rfl

theorem after_char {c : Char} {cs : List Char} (h : RestAt source l (c :: cs)) :
    RestAt source (l.after [c]) cs := by
  rw [← List.singleton_append] at h
  exact h.after

theorem holds (h : RestAt source l (text ++ rest)) :
    Holds source l.offset (l.after text).offset (.ofList text) := by
  obtain ⟨before, hsource, hl⟩ := h
  have hstop : (l.after text).offset = byteSize (before ++ text) := by
    rw [byteSize_append, ← hl]
    rfl
  rw [hstop, hl]
  exact .of_toList (hsource.trans (List.append_assoc ..).symm)

theorem size (h : RestAt source l rest) : l.offset + byteSize rest = source.utf8ByteSize := by
  obtain ⟨before, hsource, hl⟩ := h
  rw [hl, ← byteSize_append, ← hsource, byteSize_toList]

theorem after_size (h : RestAt source l rest) : (l.after rest).offset = source.utf8ByteSize :=
  h.size

/-! ## Bytes of the rest -/

open Cursor

theorem byte?_eq (source : String) (offset : Nat) :
    byte? source offset = source.toByteArray.data.toList[offset]?.map Char.ofUInt8 := by
  rw [byte?]
  congr 1
  simp only [getElem?_def, ByteArray.getElem_eq_getElem_data, Array.getElem_toList]
  rfl

/-- The bytes from the location on are those of the text. -/
theorem byte?_add (h : RestAt source l text) (k : Nat) :
    byte? source (l.offset + k) = text.utf8Encode.data.toList[k]?.map Char.ofUInt8 := by
  obtain ⟨before, hsource, hl⟩ := h
  have hlength : before.utf8Encode.data.toList.length = l.offset := by
    rw [hl, ← utf8ByteSize_ofList]
    rfl
  rw [byte?_eq, ← String.utf8Encode_toList, hsource, List.utf8Encode_append, ByteArray.data_append,
    Array.toList_append, List.getElem?_append_right (by omega), hlength, Nat.add_sub_cancel_left]

theorem byte?_char {c : Char} {cs : List Char} (h : RestAt source l (c :: cs)) {k : Nat}
    (hk : k < c.utf8Size) : ∃ b, byte? source (l.offset + k) = some b ∧ Shows b c := by
  have hlt : k < (String.utf8EncodeChar c).length := by rwa [String.length_utf8EncodeChar]
  refine ⟨Char.ofUInt8 (String.utf8EncodeChar c)[k], ?_, shows_of_mem (List.getElem_mem hlt)⟩
  rw [h.byte?_add, List.utf8Encode_cons, ByteArray.data_append, Array.toList_append,
    List.utf8Encode_singleton, List.data_toByteArray, List.toList_toArray,
    List.getElem?_append_left hlt, List.getElem?_eq_getElem hlt]
  rfl

theorem byte?_nil (h : RestAt source l []) : byte? source l.offset = none := h.byte?_add 0

theorem byte?_cons {c : Char} {cs : List Char} (h : RestAt source l (c :: cs)) :
    ∃ b, byte? source l.offset = some b ∧ Shows b c := h.byte?_char c.utf8Size_pos

/-- A character of ASCII is read by its byte, whatever stands there. -/
theorem byte?_eq_some_iff (h : RestAt source l text) {c : Char} (hc : c.toNat < 128) :
    byte? source l.offset = some c ↔ text.head? = some c := by
  cases text with
  | nil => simp [h.byte?_nil]
  | cons d cs =>
      obtain ⟨b, hb, hshows⟩ := h.byte?_cons
      rw [hb, List.head?_cons, Option.some_inj, Option.some_inj]
      rcases hshows with ⟨rfl, _⟩ | ⟨hwide, hd⟩
      · exact Iff.rfl
      · constructor
        · rintro rfl
          exact absurd hc (Nat.not_lt.2 hwide)
        · rintro rfl
          exact absurd hc (Nat.not_lt.2 hd)

theorem any_byte? (h : RestAt source l text) {test : Char → Bool} (htest : Bytewise test) :
    (byte? source l.offset).any test = text.head?.any test := by
  cases text with
  | nil => rw [h.byte?_nil, List.head?_nil]
  | cons c cs =>
      obtain ⟨b, hb, hshows⟩ := h.byte?_cons
      rw [hb, List.head?_cons, Option.any_some, Option.any_some, htest b c hshows]

/-! ## Runs of bytes -/

/-- All bytes of a character pass the test that the character passes. -/
theorem runEnd_char {test : Char → Bool} (htest : Bytewise test) {c : Char} {cs : List Char}
    (h : RestAt source l (c :: cs)) (hc : test c = true) {n : Nat} (hn : n ≤ c.utf8Size) :
    runEnd source test l.offset = runEnd source test (l.offset + n) := by
  induction n with
  | zero => rfl
  | succ n ih =>
      obtain ⟨b, hb, hshows⟩ := h.byte?_char hn
      have hpass : test b = true := (htest b c hshows).trans hc
      rw [ih (Nat.le_of_succ_le hn), runEnd_of_passes hb hpass, Nat.add_assoc]

theorem runEnd_eq {test : Char → Bool} (htest : Bytewise test) (h : RestAt source l text) :
    runEnd source test l.offset = (l.after (text.takeWhile test)).offset := by
  induction text generalizing l with
  | nil => exact runEnd_of_stops (by rw [h.byte?_nil]; rfl)
  | cons c cs ih =>
      by_cases hc : test c = true
      · have hnext : l.offset + c.utf8Size = (l.after [c]).offset := by simp [Location.after]
        rw [h.runEnd_char htest hc (Nat.le_refl _), hnext, ih h.after_char,
          List.takeWhile_cons_of_pos hc, ← Location.after_append]
        rfl
      · rw [List.takeWhile_cons_of_neg hc]
        refine runEnd_of_stops ?_
        rw [h.any_byte? htest]
        simpa using hc

end RestAt

end LoxLexer
