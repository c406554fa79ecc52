import LoxLexer.Proofs.LineMap

/-!
# Columns are distances from the line's beginning

The line of a position begins at the last start that does not lie beyond it (`lineStart_ofText`). So
what stands on a line has its distance from the line's beginning as its column, wherever the line
stands in its text (`place_ofText`).
-/

namespace LoxLexer

theorem Position.ofOffset_toNat (p : Position) : ofOffset p.toNat = p := by
  apply UInt32.toNat_inj.1
  have hlt := p.toNat_lt
  rw [toNat_ofOffset]
  omega

/-- A distance counted from 1 is a position, unless it is the distance of the last position from the
first. -/
theorem Position.add_one_sub {pos : Position} {b : Nat} (hb : b ≤ pos.toNat) :
    Position.add (pos - .ofOffset b) 1 =
      if pos.toNat - b < 4294967295 then .ok (.ofOffset (pos.toNat - b + 1))
      else .error .overflow := by
  have hlt := pos.toNat_lt
  have hstart : (Position.ofOffset b).toNat = b := by
    rw [Position.toNat_ofOffset]
    omega
  have hle : Position.ofOffset b ≤ pos := by rwa [UInt32.le_iff_toNat_le, hstart]
  have hsub : (pos - .ofOffset b).toNat = pos.toNat - b := by
    rw [UInt32.toNat_sub_of_le _ _ hle, hstart]
  have hone : (1 : Position).toNat = 1 := rfl
  split
  · rw [Position.add_eq_ok (by omega)]
    congr 1
    apply UInt32.toNat_inj.1
    rw [UInt32.toNat_add, hsub, hone, Position.toNat_ofOffset]
    omega
  · exact if_neg (by omega)

namespace LineMap

/-! ## Breaks in parts of a text -/

theorem breaks_append (offset : Nat) (a b : List Char) :
    breaks offset (a ++ b) = breaks offset a ++ breaks (offset + byteSize a) b := by
  induction a generalizing offset with
  | nil => rfl
  | cons c cs ih =>
      rw [List.cons_append, byteSize_cons, ← Nat.add_assoc]
      by_cases hc : c = '\n'
      · subst hc
        rw [breaks_newline, breaks_newline, ih]
        rfl
      · rw [breaks_of_ne hc, breaks_of_ne hc, ih]

theorem breaks_eq_nil {text : List Char} (h : '\n' ∉ text) (offset : Nat) :
    breaks offset text = [] := by
  induction text generalizing offset with
  | nil => rfl
  | cons c cs ih =>
      rw [List.mem_cons, not_or] at h
      rw [breaks_of_ne (Ne.symm h.1), ih h.2]

/-! ## The beginning of a line -/

/-- In an increasing list, the last element that does not exceed a bound is where those that do not
exceed it end. -/
theorem getElem?_countP_sub_one {starts : List Nat} (h : starts.Pairwise (· < ·)) {bound b : Nat}
    (hb : b ∈ starts) (hle : b ≤ bound) (hmax : ∀ t ∈ starts, t ≤ bound → t ≤ b) :
    starts[starts.countP (· ≤ bound) - 1]? = some b := by
  obtain ⟨i, hi⟩ := List.mem_iff_getElem?.1 hb
  have hlt : i < starts.countP (· ≤ bound) := by
    rw [← any_le_iff h, hi]
    simpa using hle
  have hge : ¬i + 1 < starts.countP (· ≤ bound) := by
    intro hnext
    rw [← any_le_iff h] at hnext
    cases ht : starts[i + 1]? with
    | none => simp [ht] at hnext
    | some t =>
        obtain ⟨hisize, hib⟩ := List.getElem?_eq_some_iff.1 hi
        obtain ⟨htsize, htb⟩ := List.getElem?_eq_some_iff.1 ht
        have hbt : b < t := hib ▸ htb ▸ List.pairwise_iff_getElem.1 h i (i + 1) hisize htsize
          (Nat.lt_succ_self i)
        have htb : t ≤ b := hmax t (List.mem_of_getElem? ht) (by simpa [ht] using hnext)
        omega
  rw [show starts.countP (· ≤ bound) - 1 = i by omega, hi]

/-- The line of a position begins at the last start that does not lie beyond it. -/
theorem lineStart_ofText {text : String} (h : text.utf8ByteSize ≤ 4294967295) {pos : Position}
    {b : Nat} (hb : b ∈ offsets text) (hle : b ≤ pos.toNat)
    (hmax : ∀ t ∈ offsets text, t ≤ pos.toNat → t ≤ b) :
    (ofText text).lineStart pos = .ofOffset b := by
  rw [lineStart, lineOf_ofText h, ← countP_offsets, ← Array.getElem?_toList, starts_ofText,
    ← offsets, List.getElem?_map,
    getElem?_countP_sub_one (pairwise_offsets text) hb hle hmax]
  rfl

/-- The place of a position is one more than the line feeds before it and than its distance from the
line's beginning, unless one of the two cannot be represented. -/
theorem place_eq {text : String} (h : text.utf8ByteSize ≤ 4294967295) {pos : Position} {b : Nat}
    (hb : b ∈ offsets text) (hle : b ≤ pos.toNat)
    (hmax : ∀ t ∈ offsets text, t ≤ pos.toNat → t ≤ b) :
    (ofText text).place pos =
      if lineFeeds text 0 pos.toNat < 4294967295 ∧ pos.toNat - b < 4294967295 then
        .ok ⟨1 + lineFeeds text 0 pos.toNat, .ofOffset (pos.toNat - b + 1)⟩
      else .error .overflow := by
  have hone : 1 + lineFeeds text 0 pos.toNat < 4294967296 ↔
      lineFeeds text 0 pos.toNat < 4294967295 := by omega
  simp only [place, line, lineOf_ofText h, lineStart_ofText h hb hle hmax,
    Position.add_one_sub hle, hone]
  by_cases hline : lineFeeds text 0 pos.toNat < 4294967295
  · by_cases hcolumn : pos.toNat - b < 4294967295
    · rw [if_pos hline, if_pos hcolumn, if_pos ⟨hline, hcolumn⟩]
      rfl
    · have hboth : ¬(lineFeeds text 0 pos.toNat < 4294967295 ∧ pos.toNat - b < 4294967295) :=
        fun hfits => hcolumn hfits.2
      rw [if_pos hline, if_neg hcolumn, if_neg hboth]
      rfl
  · have hboth : ¬(lineFeeds text 0 pos.toNat < 4294967295 ∧ pos.toNat - b < 4294967295) :=
      fun hfits => hline hfits.1
    rw [if_neg hline, if_neg hboth]
    rfl

/-! ## What stands on a line -/

/-- The line begins behind `before`: at the beginning of the text or after a line feed. -/
def BeginsLine (before : List Char) : Prop := before = [] ∨ ∃ cs, before = cs ++ ['\n']

theorem BeginsLine.byteSize_mem_offsets {before : List Char} (h : BeginsLine before)
    {text : String} {after : List Char} (htext : text.toList = before ++ after) :
    byteSize before ∈ offsets text := by
  rcases h with rfl | ⟨cs, rfl⟩
  · exact List.mem_cons_self
  · refine List.mem_cons_of_mem _ ?_
    rw [htext, breaks_append, breaks_append, breaks_newline]
    simp [show '\n'.utf8Size = 1 from rfl]

/-- The place of what has no line feed between itself and the beginning of its line. -/
theorem place_ofText {text : String} (h : text.utf8ByteSize < 4294967295)
    {before here after : List Char} (htext : text.toList = before ++ here ++ after)
    (hbefore : BeginsLine before) (hhere : '\n' ∉ here) :
    (ofText text).place (.ofOffset (byteSize (before ++ here))) =
      .ok ⟨1 + before.count '\n', .ofOffset (byteSize here + 1)⟩ := by
  have hsize : byteSize (before ++ here) + byteSize after = text.utf8ByteSize := by
    rw [← byteSize_append, ← htext, byteSize_toList]
  have hpos : (Position.ofOffset (byteSize (before ++ here))).toNat =
      byteSize (before ++ here) := by
    rw [Position.toNat_ofOffset]
    omega
  have hline : lineFeeds text 0 (byteSize (before ++ here)) = before.count '\n' := by
    rw [lineFeeds_front htext, List.count_append, List.count_eq_zero.2 hhere, Nat.add_zero]
  have hcount := lineFeeds_le text 0 (byteSize (before ++ here))
  have hlength : byteSize (before ++ here) - byteSize before = byteSize here := by
    rw [byteSize_append, Nat.add_sub_cancel_left]
  rw [place_eq (Nat.le_of_lt h)
    (hbefore.byteSize_mem_offsets (htext.trans (List.append_assoc ..))), hpos, hline, hlength,
    if_pos (by omega)]
  · rw [hpos, byteSize_append]
    exact Nat.le_add_right _ _
  · -- The next line begins behind `here`.
    intro t ht htpos
    rw [hpos] at htpos
    rcases List.mem_cons.1 ht with rfl | ht
    · exact Nat.zero_le _
    · rw [htext, breaks_append, breaks_append, breaks_eq_nil hhere, List.append_nil,
        Nat.zero_add] at ht
      rcases List.mem_append.1 ht with ht | ht
      · simpa using le_of_mem_breaks ht
      · exact absurd (lt_of_mem_breaks ht) (Nat.not_lt.2 htpos)

end LineMap

end LoxLexer
