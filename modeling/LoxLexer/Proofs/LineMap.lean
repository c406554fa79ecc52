import LoxLexer.Proofs.Bytes
import LoxLexer.Text.LineMap

/-!
# Line maps count line feeds

The starts of a line map are in order, so bisection finds how many of them do not lie beyond a
position. That many line feeds stand before the position, and one line more.
-/

namespace LoxLexer

namespace LineMap

/-! ## Where lines begin -/

/-- The offsets after the line feeds of a text that begins at an offset. -/
def breaks (offset : Nat) : List Char → List Nat
  | [] => []
  | c :: cs =>
    let next := offset + c.utf8Size
    if c = '\n' then next :: breaks next cs else breaks next cs

theorem breaks_newline (offset : Nat) (cs : List Char) :
    breaks offset ('\n' :: cs) = (offset + 1) :: breaks (offset + 1) cs := rfl

theorem breaks_of_ne {c : Char} (hc : c ≠ '\n') (offset : Nat) (cs : List Char) :
    breaks offset (c :: cs) = breaks (offset + c.utf8Size) cs := if_neg hc

theorem starts_foldl_push (text : List Char) (b : Builder) :
    (text.foldl Builder.push b).starts.toList =
      b.starts.toList ++ (breaks b.offset text).map Position.ofOffset := by
  induction text generalizing b with
  | nil => simp [breaks]
  | cons c cs ih =>
      rw [List.foldl_cons, ih]
      by_cases hc : c = '\n'
      · subst hc
        simp [Builder.push, breaks]
      · simp [Builder.push, breaks, hc]

theorem starts_ofText (text : String) :
    (ofText text).starts.toList = (0 :: breaks 0 text.toList).map Position.ofOffset :=
  starts_foldl_push text.toList Builder.first

theorem lt_of_mem_breaks {offset b : Nat} {text : List Char} (h : b ∈ breaks offset text) :
    offset < b := by
  induction text generalizing offset with
  | nil => cases h
  | cons c cs ih =>
      have hpos := c.utf8Size_pos
      by_cases hc : c = '\n'
      · subst hc
        rw [breaks_newline] at h
        rcases List.mem_cons.1 h with rfl | h
        · exact Nat.lt_succ_self offset
        · exact Nat.lt_of_succ_lt (ih h)
      · rw [breaks_of_ne hc] at h
        have hlt := ih h
        omega

theorem le_of_mem_breaks {offset b : Nat} {text : List Char} (h : b ∈ breaks offset text) :
    b ≤ offset + byteSize text := by
  induction text generalizing offset with
  | nil => cases h
  | cons c cs ih =>
      rw [byteSize_cons, ← Nat.add_assoc]
      by_cases hc : c = '\n'
      · subst hc
        rw [breaks_newline] at h
        rcases List.mem_cons.1 h with rfl | h
        · exact Nat.le_add_right _ _
        · exact ih h
      · rw [breaks_of_ne hc] at h
        exact ih h

theorem pairwise_breaks (offset : Nat) (text : List Char) :
    (breaks offset text).Pairwise (· < ·) := by
  induction text generalizing offset with
  | nil => exact .nil
  | cons c cs ih =>
      by_cases hc : c = '\n'
      · subst hc
        exact .cons (fun b hb => lt_of_mem_breaks hb) (ih _)
      · rw [breaks_of_ne hc]
        exact ih _

/-! ## Bisection -/

/-- Bisection finds the border between the starts that do not lie beyond a position and the rest. -/
theorem bisect_eq {starts : Array Position} {pos : Position} {k : Nat}
    (h : ∀ i, starts[i]?.any (· ≤ pos) = true ↔ i < k) (lo hi : Nat) (hlo : lo ≤ k) (hhi : k ≤ hi) :
    bisect starts pos lo hi = k := by
  -- The border stays between the two bounds.
  fun_induction bisect starts pos lo hi with
  | case1 lo hi hlt mid hmid ih => exact ih ((h mid).1 hmid) hhi
  | case2 lo hi hlt mid hmid ih => exact ih hlo (Nat.le_of_not_lt fun hk => hmid ((h mid).2 hk))
  | case3 lo hi hge => omega

/-- In an increasing list, what does not exceed a bound stands in front. -/
theorem any_le_iff {starts : List Nat} (h : starts.Pairwise (· < ·)) (bound i : Nat) :
    starts[i]?.any (· ≤ bound) = true ↔ i < starts.countP (· ≤ bound) := by
  induction h generalizing i with
  | nil => simp
  | @cons s starts hs _ ih =>
      by_cases hle : s ≤ bound
      · rw [List.countP_cons_of_pos (by simpa using hle)]
        cases i with
        | zero => simp [hle]
        | succ i => simpa using ih i
      · have hnone : starts.countP (· ≤ bound) = 0 := by
          rw [List.countP_eq_zero]
          intro t ht
          have hlt := hs t ht
          simp only [decide_eq_true_eq]
          omega
        rw [List.countP_cons_of_neg (by simpa using hle), hnone]
        cases i with
        | zero => simpa using hle
        | succ i => simpa [hnone] using ih i

/-! ## The line of a position -/

theorem countP_breaks (offset n : Nat) (text : List Char) :
    (breaks offset text).countP (· ≤ offset + n) =
      (text.utf8Encode.data.toList.take n).count 10 := by
  induction text generalizing offset n with
  | nil => simp [breaks]
  | cons c cs ih =>
      rw [List.utf8Encode_cons, ByteArray.data_append, Array.toList_append,
        List.utf8Encode_singleton, List.data_toByteArray, List.toList_toArray]
      by_cases hc : c = '\n'
      · subst hc
        cases n with
        | zero =>
            rw [List.take_zero, List.count_nil, List.countP_eq_zero]
            intro b hb
            simpa using lt_of_mem_breaks hb
        | succ n =>
            have hn := ih (offset + 1) n
            rw [Nat.add_assoc, Nat.add_comm 1 n] at hn
            rw [breaks_newline, List.countP_cons_of_pos (by simp), hn]
            exact List.count_cons_self.symm
      · rw [breaks_of_ne hc]
        have hnone : (String.utf8EncodeChar c).count 10 = 0 := by
          rw [count_utf8EncodeChar, if_neg hc]
        have hlength := String.length_utf8EncodeChar c
        rcases Nat.lt_or_ge n c.utf8Size with hlt | hge
        · -- The position stands inside the character.
          rw [List.take_append_of_le_length (by omega), List.countP_eq_zero.2 ?_]
          · exact (Nat.le_zero.1 (hnone ▸ (List.take_sublist n _).count_le 10)).symm
          · intro b hb
            have hb := lt_of_mem_breaks hb
            simp only [decide_eq_true_eq]
            omega
        · obtain ⟨m, rfl⟩ := Nat.le.dest hge
          rw [← hlength, List.take_length_add_append, List.count_append, hnone, hlength,
            ← Nat.add_assoc, ih, Nat.zero_add]

def offsets (text : String) : List Nat := 0 :: breaks 0 text.toList

theorem pairwise_offsets (text : String) : (offsets text).Pairwise (· < ·) :=
  .cons (fun _ hb => lt_of_mem_breaks hb) (pairwise_breaks 0 _)

theorem le_of_mem_offsets {text : String} {b : Nat} (h : b ∈ offsets text) :
    b ≤ text.utf8ByteSize := by
  rcases List.mem_cons.1 h with rfl | h
  · exact Nat.zero_le _
  · have hle := le_of_mem_breaks h
    rwa [Nat.zero_add, byteSize_toList] at hle

theorem countP_offsets (text : String) (n : Nat) :
    (offsets text).countP (· ≤ n) = 1 + lineFeeds text 0 n := by
  have hbreaks := countP_breaks 0 n text.toList
  rw [Nat.zero_add] at hbreaks
  rw [offsets, List.countP_cons_of_pos (by simp), hbreaks, Nat.add_comm, lineFeeds,
    String.utf8Encode_toList]
  simp

/-- No start is cut off, so starts and offsets compare alike. -/
theorem any_starts {text : String} (h : text.utf8ByteSize ≤ 4294967295) (pos : Position) (i : Nat) :
    (ofText text).starts[i]?.any (· ≤ pos) = (offsets text)[i]?.any (· ≤ pos.toNat) := by
  rw [← Array.getElem?_toList, starts_ofText, ← offsets, List.getElem?_map, Option.any_map]
  cases hi : (offsets text)[i]? with
  | none => rfl
  | some b =>
      have hb := Nat.le_trans (le_of_mem_offsets (List.mem_of_getElem? hi)) h
      simp only [Option.any_some, UInt32.le_iff_toNat_le, Position.toNat_ofOffset,
        Nat.min_eq_left hb]

/-- The line of a position is one more than the line feeds before it, also beyond the text. -/
theorem lineOf_ofText {text : String} (h : text.utf8ByteSize ≤ 4294967295) (pos : Position) :
    (ofText text).lineOf pos = 1 + lineFeeds text 0 pos.toNat := by
  rw [← countP_offsets]
  refine bisect_eq (fun i => ?_) 0 _ (Nat.zero_le _) ?_
  · rw [any_starts h]
    exact any_le_iff (pairwise_offsets text) pos.toNat i
  · rw [← Array.length_toList, starts_ofText, List.length_map]
    exact List.countP_le_length

end LineMap

end LoxLexer
