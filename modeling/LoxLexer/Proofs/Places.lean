import LoxLexer.Proofs.Reports

/-!
# Looking up a place is counting line feeds

The line of a position is one more than the line feeds before it, and the column is counted from
behind the last of them (`IsPlace`). This holds of every position, also of those beyond the text, as
long as line and column can be represented (`place_isPlace`). It does not matter how the starts are
searched: every search of increasing positions leads to the same line (`lineOf_eq_of_search`).
-/

namespace LoxLexer

/-! ## Bytes that are line feeds -/

section

variable {text : String}

theorem getElem?_bytes (text : String) (n : Nat) :
    text.toByteArray[n]? = text.toByteArray.data.toList[n]? := by
  simp only [getElem?_def, ByteArray.getElem_eq_getElem_data, Array.getElem_toList]
  rfl

theorem length_bytes (text : String) : text.toByteArray.data.toList.length = text.utf8ByteSize :=
  rfl

theorem lineFeeds_eq_count (text : String) (start stop : Nat) :
    lineFeeds text start stop =
      ((text.toByteArray.data.toList.drop start).take (stop - start)).count 10 := by
  simp [lineFeeds, List.extract_eq_take_drop]

theorem lineFeeds_zero (text : String) (n : Nat) :
    lineFeeds text 0 n = (text.toByteArray.data.toList.take n).count 10 := by
  simp [lineFeeds]

theorem lineFeeds_succ (text : String) (n : Nat) :
    lineFeeds text 0 (n + 1) =
      lineFeeds text 0 n + if text.toByteArray[n]? = some 10 then 1 else 0 := by
  rw [lineFeeds_zero, lineFeeds_zero, List.take_add_one, List.count_append, getElem?_bytes]
  cases text.toByteArray.data.toList[n]? with
  | none => simp
  | some byte => simp [List.count_cons]

theorem lineFeeds_le_utf8ByteSize (text : String) (n : Nat) :
    lineFeeds text 0 n ≤ text.utf8ByteSize := by
  rw [lineFeeds_zero, ← length_bytes]
  exact Nat.le_trans List.count_le_length (List.length_take_le' n _)

theorem lineFeeds_add (text : String) {start middle stop : Nat} (hstart : start ≤ middle)
    (hstop : middle ≤ stop) :
    lineFeeds text start stop = lineFeeds text start middle + lineFeeds text middle stop := by
  obtain ⟨m, rfl⟩ := Nat.le.dest hstart
  obtain ⟨n, rfl⟩ := Nat.le.dest hstop
  have hlength : start + m + n - start = m + n := by omega
  simp [lineFeeds_eq_count, hlength, List.take_add]

/-- From the end of the text on no more line feeds are counted. -/
theorem lineFeeds_of_le {n : Nat} (h : text.utf8ByteSize ≤ n) :
    lineFeeds text 0 n = text.toList.count '\n' := by
  have hall : lineFeeds text 0 (byteSize text.toList) = text.toList.count '\n' :=
    lineFeeds_front (List.append_nil _).symm
  have hsize := Nat.le_of_eq (length_bytes text)
  rw [byteSize_toList, lineFeeds_zero, List.take_of_length_le hsize] at hall
  rw [lineFeeds_zero, List.take_of_length_le (Nat.le_trans hsize h), hall]

theorem lineFeeds_pos_iff {start stop : Nat} :
    0 < lineFeeds text start stop ↔
      ∃ i, start ≤ i ∧ i < stop ∧ text.toByteArray[i]? = some 10 := by
  rw [lineFeeds_eq_count, List.count_pos_iff, List.mem_iff_getElem?]
  constructor
  · rintro ⟨i, hi⟩
    rw [List.getElem?_take] at hi
    split at hi
    · rw [List.getElem?_drop] at hi
      exact ⟨start + i, Nat.le_add_right _ _, by omega, (getElem?_bytes _ _).trans hi⟩
    · cases hi
  · rintro ⟨i, hstart, hstop, hi⟩
    refine ⟨i - start, ?_⟩
    rw [List.getElem?_take_of_lt (by omega), List.getElem?_drop, Nat.add_sub_cancel' hstart,
      ← getElem?_bytes, hi]

end

namespace LineMap

/-! ## Where the line of an offset begins -/

/-- The line of an offset begins behind the last line feed before the offset, or at the beginning of
the text if there is none. -/
structure LineBegins (text : String) (offset start : Nat) : Prop where
  le : start ≤ offset
  behind : start = 0 ∨ text.toByteArray[start - 1]? = some 10
  last : lineFeeds text start offset = 0

theorem succ_mem_offsets_iff {text : String} {n : Nat} :
    n + 1 ∈ offsets text ↔ text.toByteArray[n]? = some 10 := by
  -- One more start does not lie beyond the offset exactly if there is one more line feed before it.
  have hsplit (starts : List Nat) :
      starts.countP (· ≤ n + 1) = starts.countP (· ≤ n) + starts.count (n + 1) := by
    induction starts with
    | nil => rfl
    | cons s starts ih =>
        rw [List.countP_cons, List.countP_cons, List.count_cons, ih]
        simp only [decide_eq_true_eq, beq_iff_eq]
        split <;> split <;> split <;> omega
  have hcount := hsplit (offsets text)
  rw [countP_offsets, countP_offsets, lineFeeds_succ] at hcount
  rw [Nat.add_assoc, Nat.add_left_cancel_iff, Nat.add_left_cancel_iff] at hcount
  rw [← List.count_pos_iff, ← hcount]
  split
  · rename_i hbyte
    exact ⟨fun _ => hbyte, fun _ => Nat.one_pos⟩
  · rename_i hbyte
    exact ⟨fun hpos => absurd hpos (Nat.lt_irrefl 0), fun h => absurd h hbyte⟩

theorem mem_offsets_iff {text : String} {b : Nat} :
    b ∈ offsets text ↔ b = 0 ∨ text.toByteArray[b - 1]? = some 10 := by
  cases b with
  | zero => simp [offsets]
  | succ n => simp [succ_mem_offsets_iff]

theorem lineBegins_iff {text : String} {n b : Nat} :
    LineBegins text n b ↔
      b ∈ offsets text ∧ b ≤ n ∧ ∀ t ∈ offsets text, t ≤ n → t ≤ b := by
  constructor
  · rintro ⟨hle, hbehind, hlast⟩
    refine ⟨mem_offsets_iff.2 hbehind, hle, fun t ht htn => ?_⟩
    cases t with
    | zero => exact Nat.zero_le b
    | succ i =>
        have hbyte := succ_mem_offsets_iff.1 ht
        rcases Nat.lt_or_ge i b with hlt | hge
        · exact hlt
        · have hpos := lineFeeds_pos_iff.2 ⟨i, hge, htn, hbyte⟩
          omega
  · rintro ⟨hb, hle, hmax⟩
    refine ⟨hle, mem_offsets_iff.1 hb, Nat.eq_zero_of_not_pos fun hpos => ?_⟩
    obtain ⟨i, hge, hlt, hbyte⟩ := lineFeeds_pos_iff.1 hpos
    have hsucc := hmax (i + 1) (succ_mem_offsets_iff.2 hbyte) hlt
    omega

theorem exists_lineBegins (text : String) (n : Nat) : ∃ b, LineBegins text n b := by
  obtain ⟨b, hb⟩ := exists_lineStart text n
  exact ⟨b, lineBegins_iff.2 hb⟩

/-! ## Searches -/

/-- The answer to a search for a position among positions that increase: the index at which it
stands, or else the index at which it would have to be put in. -/
inductive Search (starts : List Position) (pos : Position) : Except Nat Nat → Prop
  | found {i : Nat} (h : starts[i]? = some pos) : Search starts pos (.ok i)
  | missing {before after : List Position} (h : starts = before ++ after)
      (hbefore : ∀ s ∈ before, s < pos) (hafter : ∀ s ∈ after, pos < s) :
      Search starts pos (.error before.length)

/-- Lines are counted from 1, so a line that begins at the position has the number after its index.
Otherwise the line is the one before the index. -/
def lineOfAnswer : Except Nat Nat → Nat
  | .ok i => i + 1
  | .error i => i

theorem any_le_iff_le {starts : List Position} (hs : starts.Pairwise (· < ·)) {i : Nat}
    {pos : Position} (hi : starts[i]? = some pos) (j : Nat) :
    starts[j]?.any (· ≤ pos) = true ↔ j ≤ i := by
  obtain ⟨hlt, rfl⟩ := List.getElem?_eq_some_iff.1 hi
  rw [List.pairwise_iff_getElem] at hs
  cases hj : starts[j]? with
  | none =>
      have hge := List.getElem?_eq_none_iff.1 hj
      simp only [Option.any_none, Bool.false_eq_true, false_iff]
      omega
  | some s =>
      obtain ⟨hjlt, rfl⟩ := List.getElem?_eq_some_iff.1 hj
      simp only [Option.any_some, decide_eq_true_eq, UInt32.le_iff_toNat_le]
      rcases Nat.lt_trichotomy i j with hij | rfl | hji
      · have hless := UInt32.lt_iff_toNat_lt.1 (hs i j hlt hjlt hij)
        omega
      · simp
      · have hless := UInt32.lt_iff_toNat_lt.1 (hs j i hjlt hlt hji)
        omega

/-- Every search leads to the same line. -/
theorem lineOf_eq_of_search {map : LineMap} (hs : map.starts.toList.Pairwise (· < ·))
    {pos : Position} {answer : Except Nat Nat} (h : Search map.starts.toList pos answer) :
    map.lineOf pos = lineOfAnswer answer := by
  cases h with
  | @found i hi =>
      have hlt := (List.getElem?_eq_some_iff.1 hi).1
      refine bisect_eq (fun j => ?_) 0 _ (Nat.zero_le _) hlt
      rw [← Array.getElem?_toList, any_le_iff_le hs hi]
      exact Nat.lt_succ_iff.symm
  | @missing before after h hbefore hafter =>
      have hsize : before.length ≤ map.starts.size := by
        rw [← Array.length_toList, h, List.length_append]
        exact Nat.le_add_right _ _
      refine bisect_eq (fun j => ?_) 0 _ (Nat.zero_le _) hsize
      rw [← Array.getElem?_toList, h, List.getElem?_append, lineOfAnswer]
      split
      · rename_i hj
        have hless := hbefore _ (List.getElem_mem hj)
        rw [UInt32.lt_iff_toNat_lt] at hless
        simp only [List.getElem?_eq_getElem hj, Option.any_some, decide_eq_true_eq,
          UInt32.le_iff_toNat_le, hj, iff_true]
        omega
      · rename_i hj
        cases hs : after[j - before.length]? with
        | none => simp [hj]
        | some s =>
            have hgreater := hafter s (List.mem_of_getElem? hs)
            rw [UInt32.lt_iff_toNat_lt] at hgreater
            simp only [Option.any_some, decide_eq_true_eq, UInt32.le_iff_toNat_le, hj, iff_false]
            omega

theorem pairwise_starts {text : String} (h : text.utf8ByteSize ≤ 4294967295) :
    (ofText text).starts.toList.Pairwise (· < ·) := by
  rw [starts_ofText, ← offsets, List.pairwise_map]
  refine (pairwise_offsets text).imp_of_mem fun ha hb hlt => ?_
  have hale := le_of_mem_offsets ha
  have hble := le_of_mem_offsets hb
  rw [UInt32.lt_iff_toNat_lt, Position.toNat_ofOffset, Position.toNat_ofOffset]
  omega

/-! ## Places -/

/-- The place has the line and the column of the offset. -/
structure IsPlace (text : String) (offset : Nat) (p : Place) : Prop where
  line : p.line = 1 + lineFeeds text 0 offset
  column : ∃ start, LineBegins text offset start ∧ p.column.toNat = offset - start + 1

/-- The line or the column of the offset is too great to be represented. -/
def TooFar (text : String) (offset : Nat) : Prop :=
  lineFeeds text 0 offset = 4294967295 ∨ lineFeeds text 0 offset = 0 ∧ offset = 4294967295

section

variable {text : String} (h : text.utf8ByteSize ≤ 4294967295) (pos : Position)

include h

/-- The index of a line finds where the line begins. -/
theorem getElem?_starts {start : Nat} (hstart : LineBegins text pos.toNat start) :
    (ofText text).starts[(ofText text).lineOf pos - 1]? = some (.ofOffset start) := by
  obtain ⟨hmem, hle, hmax⟩ := lineBegins_iff.1 hstart
  rw [lineOf_ofText h, ← countP_offsets, ← Array.getElem?_toList, starts_ofText, ← offsets,
    List.getElem?_map, getElem?_countP_sub_one (pairwise_offsets text) hmem hle hmax]
  rfl

theorem place_isPlace (hfits : ¬TooFar text pos.toNat) :
    ∃ p, (ofText text).place pos = .ok p ∧ IsPlace text pos.toNat p := by
  obtain ⟨start, hstart⟩ := exists_lineBegins text pos.toNat
  obtain ⟨hmem, hle, hmax⟩ := lineBegins_iff.1 hstart
  have hcount := lineFeeds_le_utf8ByteSize text pos.toNat
  have hpos := pos.toNat_lt
  rw [TooFar, not_or, not_and] at hfits
  have hcolumn : pos.toNat - start < 4294967295 := by
    -- Only the first line can be so long, and then there is no line feed before the offset.
    have hfirst : start = 0 → lineFeeds text 0 pos.toNat = 0 := fun h => h ▸ hstart.last
    by_cases hzero : start = 0
    · have hlast := hfits.2 (hfirst hzero)
      omega
    · omega
  refine ⟨_, (place_eq h hmem hle hmax).trans (if_pos ⟨by omega, hcolumn⟩), rfl, start, hstart, ?_⟩
  rw [Position.toNat_ofOffset]
  omega

theorem place_eq_overflow (hfar : TooFar text pos.toNat) :
    (ofText text).place pos = .error .overflow := by
  obtain ⟨start, hstart⟩ := exists_lineBegins text pos.toNat
  obtain ⟨hmem, hle, hmax⟩ := lineBegins_iff.1 hstart
  refine (place_eq h hmem hle hmax).trans (if_neg ?_)
  rintro ⟨hline, hcolumn⟩
  rcases hfar with hfar | ⟨hnone, hlast⟩
  · omega
  · -- Without a line feed before the offset, its line is the first.
    have hzero : start = 0 := by
      rcases hstart.behind with hzero | hbyte
      · exact hzero
      · refine Nat.eq_zero_of_not_pos fun hpos => ?_
        have hle := hstart.le
        have hcount : 0 < lineFeeds text 0 pos.toNat :=
          lineFeeds_pos_iff.2 ⟨start - 1, Nat.zero_le _, by omega, hbyte⟩
        omega
    omega

end

/-! ## Every position -/

/-- What a line map gives for a position is what counting in the text gives. -/
structure Counted (text : String) (pos : Position) : Prop where
  increasing : (ofText text).starts.toList.Pairwise (· < ·)
  searched : ∀ answer, Search (ofText text).starts.toList pos answer →
    lineOfAnswer answer = (ofText text).lineOf pos
  lineOf : (ofText text).lineOf pos = 1 + lineFeeds text 0 pos.toNat
  line : (ofText text).line pos = .ok ((ofText text).lineOf pos)
  start : ∃ s, (ofText text).starts[(ofText text).lineOf pos - 1]? = some s ∧
    LineBegins text pos.toNat s.toNat
  place : '\n' ∈ text.toList ∨ pos.toNat ≠ 4294967295 →
    ∃ p, (ofText text).place pos = .ok p ∧ IsPlace text pos.toNat p
  overflow : '\n' ∉ text.toList ∧ pos.toNat = 4294967295 →
    (ofText text).place pos = .error .overflow

theorem tooFar_iff {text : String} (h : text.utf8ByteSize < 4294967295) {offset : Nat} :
    TooFar text offset ↔ '\n' ∉ text.toList ∧ offset = 4294967295 := by
  have hcount := lineFeeds_le_utf8ByteSize text offset
  have hnone : offset = 4294967295 → (lineFeeds text 0 offset = 0 ↔ '\n' ∉ text.toList) := by
    rintro rfl
    rw [lineFeeds_of_le (Nat.le_of_lt h), List.count_eq_zero]
  constructor
  · rintro (hfar | ⟨hzero, hlast⟩)
    · omega
    · exact ⟨(hnone hlast).1 hzero, hlast⟩
  · rintro ⟨hmem, hlast⟩
    exact .inr ⟨(hnone hlast).2 hmem, hlast⟩

/-- Looking up a position in the line map of a text counts the line feeds before the position, and
the bytes behind the last of them. It fails only for the last position, if the text has one line. -/
theorem counted_ofText (text : String) (h : text.utf8ByteSize < 4294967295) (pos : Position) :
    Counted text pos := by
  have hsize := Nat.le_of_lt h
  have hcount := lineFeeds_le_utf8ByteSize text pos.toNat
  have hline := lineOf_ofText hsize pos
  refine
    { increasing := pairwise_starts hsize, searched := ?searched, lineOf := hline, line := ?line
      start := ?start, place := ?place, overflow := ?overflow }
  case searched =>
    intro answer hanswer
    exact (lineOf_eq_of_search (pairwise_starts hsize) hanswer).symm
  case line => exact if_pos (by omega)
  case start =>
    obtain ⟨start, hstart⟩ := exists_lineBegins text pos.toNat
    refine ⟨_, getElem?_starts hsize pos hstart, ?_⟩
    have hle := le_of_mem_offsets (lineBegins_iff.1 hstart).1
    rwa [Position.toNat_ofOffset, Nat.min_eq_left (Nat.le_trans hle hsize)]
  case place =>
    intro hor
    refine place_isPlace hsize pos fun hfar => ?_
    obtain ⟨hmem, hlast⟩ := (tooFar_iff h).1 hfar
    exact hor.elim hmem fun hne => hne hlast
  case overflow =>
    intro hboth
    exact place_eq_overflow hsize pos ((tooFar_iff h).2 hboth)

/-- An empty line, and the position after the last byte. -/
theorem counted_ofText_blank :
    "a\n\nb".utf8ByteSize < 4294967295 ∧ Counted "a\n\nb" 2 ∧
      (ofText "a\n\nb").place 2 = .ok ⟨2, 1⟩ ∧ Counted "a\n\nb" 4 ∧
      (ofText "a\n\nb").place 4 = .ok ⟨3, 2⟩ :=
  ⟨by decide, counted_ofText _ (by decide) 2, by decide +kernel, counted_ofText _ (by decide) 4,
    by decide +kernel⟩

end LineMap

end LoxLexer
