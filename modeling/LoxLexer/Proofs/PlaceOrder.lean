import LoxLexer.Proofs.Places
import LoxLexer.Proofs.Rows

/-!
# Places are ordered as positions are

A later position has a later place, on a later line or farther behind on the same line. Up to the
end of the text, the place tells the position: it is as many bytes behind the lines in front as the
column says. And each place on a line of the text is that of one position (`places_ordered`).
-/

namespace LoxLexer

/-- On a line farther in front, or farther in front on the same line. -/
def Place.Precedes (p q : Place) : Prop :=
  p.line < q.line ∨ p.line = q.line ∧ p.column < q.column

theorem Place.eq_of_toNat {p q : Place} (hline : p.line = q.line)
    (hcolumn : p.column.toNat = q.column.toNat) : p = q := by
  cases p
  cases q
  cases hline
  cases UInt32.toNat_inj.1 hcolumn
  rfl

theorem Place.Precedes.asymm {p q : Place} (h : p.Precedes q) : ¬q.Precedes p := by
  simp only [Precedes, UInt32.lt_iff_toNat_lt] at h ⊢
  omega

namespace LineMap

/-! ## The order of places -/

section

variable {text : String} {a b : Nat}

theorem LineBegins.unique {s t : Nat} (hs : LineBegins text a s) (ht : LineBegins text a t) :
    s = t := by
  obtain ⟨hsmem, hsle, hsmax⟩ := lineBegins_iff.1 hs
  obtain ⟨htmem, htle, htmax⟩ := lineBegins_iff.1 ht
  exact Nat.le_antisymm (htmax s hsmem hsle) (hsmax t htmem htle)

/-- Without a line feed on the way, the line goes on. -/
theorem LineBegins.of_le {s : Nat} (h : LineBegins text a s) (hab : a ≤ b)
    (hnone : lineFeeds text a b = 0) : LineBegins text b s := by
  refine ⟨Nat.le_trans h.le hab, h.behind, ?_⟩
  rw [lineFeeds_add text h.le hab, h.last, hnone]

theorem IsPlace.unique {p q : Place} (hp : IsPlace text a p) (hq : IsPlace text a q) : p = q := by
  obtain ⟨hline, s, hs, hcolumn⟩ := hp
  obtain ⟨hline', t, ht, hcolumn'⟩ := hq
  cases hs.unique ht
  exact Place.eq_of_toNat (hline.trans hline'.symm) (hcolumn.trans hcolumn'.symm)

theorem IsPlace.precedes {p q : Place} (hp : IsPlace text a p) (hq : IsPlace text b q)
    (hab : a < b) : p.Precedes q := by
  obtain ⟨hline, s, hs, hcolumn⟩ := hp
  obtain ⟨hline', t, ht, hcolumn'⟩ := hq
  have hsplit := lineFeeds_add text (Nat.zero_le a) (Nat.le_of_lt hab)
  by_cases hnone : lineFeeds text a b = 0
  · cases (hs.of_le (Nat.le_of_lt hab) hnone).unique ht
    have hle := hs.le
    refine .inr ⟨by omega, ?_⟩
    rw [UInt32.lt_iff_toNat_lt]
    omega
  · exact .inl (by omega)

theorem IsPlace.lt_iff_precedes {p q : Place} (hp : IsPlace text a p) (hq : IsPlace text b q) :
    a < b ↔ p.Precedes q := by
  constructor
  · exact hp.precedes hq
  · intro hprecedes
    rcases Nat.lt_trichotomy a b with hlt | heq | hgt
    · exact hlt
    · subst heq
      rw [hp.unique hq] at hprecedes
      exact absurd hprecedes hprecedes.asymm
    · exact absurd (hq.precedes hp hgt) hprecedes.asymm

end

theorem isPlace_of_place {text : String} (h : text.utf8ByteSize ≤ 4294967295) {pos : Position}
    {p : Place} (hp : (ofText text).place pos = .ok p) : IsPlace text pos.toNat p := by
  by_cases hfar : TooFar text pos.toNat
  · cases (place_eq_overflow h pos hfar).symm.trans hp
  · obtain ⟨q, hq, hplace⟩ := place_isPlace h pos hfar
    cases hq.symm.trans hp
    exact hplace

/-! ## The lines of a text -/

/-- The lines without their line feeds; behind a line feed at the end stands an empty line. -/
def lines (text : String) : List (List Char) := text.toList.splitOn '\n'

/-- The first lines with their line feeds. -/
def firstLines (lines : List (List Char)) (n : Nat) : List Char :=
  (lines.take n).flatMap (· ++ ['\n'])

theorem firstLines_succ (line : List Char) (lines : List (List Char)) (n : Nat) :
    firstLines (line :: lines) (n + 1) = line ++ '\n' :: firstLines lines n := by
  simp [firstLines]

/-- After a part of the text with so many line feeds, a line begins. -/
structure LineAt (text : List Char) (n : Nat) (before line : List Char) : Prop where
  text_eq : ∃ after, text = before ++ line ++ after
  begins : BeginsLine before
  count : before.count '\n' = n
  free : '\n' ∉ line

theorem LineAt.succ {text before line : List Char} {n : Nat} (h : LineAt text n before line)
    {body : List Char} (hbody : '\n' ∉ body) :
    LineAt (body ++ '\n' :: text) (n + 1) (body ++ '\n' :: before) line := by
  obtain ⟨⟨after, rfl⟩, hbegins, hcount, hfree⟩ := h
  refine ⟨⟨after, by simp⟩, .inr ?_, ?_, hfree⟩
  · rcases hbegins with rfl | ⟨cs, rfl⟩
    · exact ⟨body, rfl⟩
    · exact ⟨body ++ '\n' :: cs, by simp⟩
  · rw [List.count_append, List.count_eq_zero.2 hbody, List.count_cons_self, hcount, Nat.zero_add]

theorem lineAt_of_not_mem {body line : List Char} (hbody : '\n' ∉ body) {n : Nat}
    (h : (body.splitOn '\n')[n]? = some line) :
    LineAt body n (firstLines (body.splitOn '\n') n) line := by
  rw [List.splitOn_eq_singleton hbody] at h ⊢
  cases n with
  | zero =>
      cases h
      exact ⟨⟨[], by simp [firstLines]⟩, .inl rfl, rfl, hbody⟩
  | succ n => cases h

theorem lineAt_of_getElem? {text line : List Char} {n : Nat}
    (h : (text.splitOn '\n')[n]? = some line) :
    LineAt text n (firstLines (text.splitOn '\n') n) line := by
  induction text using Prompt.rows_induction generalizing n with
  | nil => exact lineAt_of_not_mem List.not_mem_nil h
  | last body _ hbody => exact lineAt_of_not_mem hbody h
  | newline body rest hbody ih =>
      rw [List.splitOn_append_cons_self_of_not_mem hbody] at h ⊢
      cases n with
      | zero =>
          cases h
          exact ⟨⟨'\n' :: rest, by simp [firstLines]⟩, .inl rfl, rfl, hbody⟩
      | succ n =>
          rw [firstLines_succ]
          exact (ih h).succ hbody

/-- Every offset stands on a line, or at its end. -/
theorem exists_line {text : List Char} {offset : Nat} (h : offset ≤ byteSize text) :
    ∃ (n : Nat) (line : List Char) (k : Nat), (text.splitOn '\n')[n]? = some line ∧
      k ≤ byteSize line ∧ offset = byteSize (firstLines (text.splitOn '\n') n) + k := by
  induction text using Prompt.rows_induction generalizing offset with
  | nil => exact ⟨0, [], offset, rfl, h, by simp [firstLines]⟩
  | last body _ hbody =>
      rw [List.splitOn_eq_singleton hbody]
      exact ⟨0, body, offset, rfl, h, by simp [firstLines]⟩
  | newline body rest hbody ih =>
      rw [List.splitOn_append_cons_self_of_not_mem hbody]
      rcases Nat.lt_or_ge (byteSize body) offset with hlt | hle
      · have hone : '\n'.utf8Size = 1 := rfl
        rw [byteSize_append, byteSize_cons, hone] at h
        obtain ⟨n, line, k, hline, hk, heq⟩ := @ih (offset - (byteSize body + 1)) (by omega)
        refine ⟨n + 1, line, k, hline, hk, ?_⟩
        rw [firstLines_succ, byteSize_append, byteSize_cons, hone]
        omega
      · exact ⟨0, body, offset, rfl, hle, by simp [firstLines]⟩

/-- What stands on a line has the number of the line and its distance from the line's beginning. -/
theorem LineAt.isPlace {text : String} {n k : Nat} {before line : List Char}
    (h : LineAt text.toList n before line) (hk : k ≤ byteSize line) {p : Place}
    (hp : IsPlace text (byteSize before + k) p) : p.line = n + 1 ∧ p.column.toNat = k + 1 := by
  obtain ⟨⟨after, htext⟩, hbegins, hcount, hfree⟩ := h
  obtain ⟨hline, start, hstart, hcolumn⟩ := hp
  have hbefore : lineFeeds text 0 (byteSize before) = n := by
    rw [← hcount]
    exact lineFeeds_front (htext.trans (List.append_assoc ..))
  have hnone : lineFeeds text (byteSize before) (byteSize before + k) = 0 := by
    have hall := lineFeeds_of_toList htext
    rw [List.count_eq_zero.2 hfree, byteSize_append,
      lineFeeds_add text (Nat.le_add_right _ k) (Nat.add_le_add_left hk _)] at hall
    exact (Nat.add_eq_zero_iff.1 hall).1
  have hmem := hbegins.byteSize_mem_offsets (htext.trans (List.append_assoc ..))
  have hhere : LineBegins text (byteSize before + k) (byteSize before) :=
    ⟨Nat.le_add_right _ _, mem_offsets_iff.1 hmem, hnone⟩
  cases hstart.unique hhere
  rw [lineFeeds_add text (Nat.zero_le _) hhere.le, hbefore, hnone] at hline
  omega

/-! ## Places of the text -/

/-- The text has the line, and the column is that of a byte of the line or the one behind them. -/
def HasPlace (text : String) (p : Place) : Prop :=
  1 ≤ p.line ∧ 1 ≤ p.column ∧
    ∃ line, (lines text)[p.line - 1]? = some line ∧ p.column.toNat - 1 ≤ byteSize line

/-- The offset of a place: the lines in front of it, and what stands in front of it on its line. -/
def offsetOf (text : String) (p : Place) : Nat :=
  byteSize (firstLines (lines text) (p.line - 1)) + (p.column.toNat - 1)

/-- The place of a position tells where the position is. Positions beyond the text are ordered like
those before its end. -/
structure Ordered (text : String) : Prop where
  placed : ∀ pos : Position, pos.toNat ≤ text.utf8ByteSize →
    ∃ p, (ofText text).place pos = .ok p ∧ HasPlace text p ∧ pos.toNat = offsetOf text p
  order : ∀ {a b p q}, (ofText text).place a = .ok p → (ofText text).place b = .ok q →
    (a < b ↔ p.Precedes q)
  injective : ∀ {a b p}, (ofText text).place a = .ok p → (ofText text).place b = .ok p → a = b
  onto : ∀ p, HasPlace text p → ∃ pos : Position, pos.toNat ≤ text.utf8ByteSize ∧
    ∀ other, (ofText text).place other = .ok p ↔ other = pos

theorem IsPlace.hasPlace {text : String} {offset : Nat} {p : Place} (hp : IsPlace text offset p)
    (hoffset : offset ≤ text.utf8ByteSize) : HasPlace text p ∧ offset = offsetOf text p := by
  rw [← byteSize_toList] at hoffset
  obtain ⟨n, line, k, hline, hk, heq⟩ := exists_line hoffset
  rw [heq] at hp
  obtain ⟨hnumber, hcolumn⟩ := (lineAt_of_getElem? hline).isPlace hk hp
  have hn : p.line - 1 = n := by omega
  have hk' : p.column.toNat - 1 = k := by omega
  refine ⟨⟨by omega, ?_, line, ?_, by omega⟩, ?_⟩
  · rw [UInt32.le_iff_toNat_le, hcolumn]
    exact Nat.le_add_left 1 k
  · rw [hn]
    exact hline
  · rw [offsetOf, hn, hk']
    exact heq

section

variable {text : String} (h : text.utf8ByteSize < 4294967295)

include h

theorem isPlace_of_le {pos : Position} (hpos : pos.toNat ≤ text.utf8ByteSize) :
    ∃ p, (ofText text).place pos = .ok p ∧ IsPlace text pos.toNat p := by
  refine place_isPlace (Nat.le_of_lt h) pos fun hfar => ?_
  have hlast := ((tooFar_iff h).1 hfar).2
  omega

theorem lt_iff_precedes {a b : Position} {p q : Place} (hp : (ofText text).place a = .ok p)
    (hq : (ofText text).place b = .ok q) : a < b ↔ p.Precedes q := by
  have hsize := Nat.le_of_lt h
  rw [UInt32.lt_iff_toNat_lt]
  exact (isPlace_of_place hsize hp).lt_iff_precedes (isPlace_of_place hsize hq)

theorem place_injective {a b : Position} {p : Place} (ha : (ofText text).place a = .ok p)
    (hb : (ofText text).place b = .ok p) : a = b := by
  have hab := lt_iff_precedes h ha hb
  have hba := lt_iff_precedes h hb ha
  have hnone : ¬p.Precedes p := fun hp => hp.asymm hp
  rw [UInt32.lt_iff_toNat_lt, iff_false_right hnone] at hab hba
  exact UInt32.toNat_inj.1 (by omega)

/-- The position of a place is that of its offset. -/
theorem exists_place_eq {p : Place} (hp : HasPlace text p) :
    ∃ pos : Position, pos.toNat ≤ text.utf8ByteSize ∧ (ofText text).place pos = .ok p := by
  obtain ⟨hline, hcolumn, line, hget, hk⟩ := hp
  have hat := lineAt_of_getElem? hget
  obtain ⟨after, htext⟩ := hat.text_eq
  rw [← lines] at hat htext
  have hsize := congrArg byteSize htext
  rw [byteSize_toList, byteSize_append, byteSize_append] at hsize
  have hoffset : offsetOf text p ≤ text.utf8ByteSize := by
    rw [offsetOf]
    omega
  have hpos : (Position.ofOffset (offsetOf text p)).toNat = offsetOf text p := by
    rw [Position.toNat_ofOffset]
    omega
  obtain ⟨q, hq, hplace⟩ := isPlace_of_le h (hpos ▸ hoffset)
  rw [hpos] at hplace
  obtain ⟨hqline, hqcolumn⟩ := hat.isPlace hk hplace
  have hsame : q = p := by
    have hone : (1 : Position).toNat = 1 := rfl
    rw [UInt32.le_iff_toNat_le] at hcolumn
    exact Place.eq_of_toNat (by omega) (by omega)
  exact ⟨_, hpos ▸ hoffset, hsame ▸ hq⟩

end

/-- Up to the end of a text, positions and the places on its lines correspond, and they are in the
same order. -/
theorem places_ordered (text : String) (h : text.utf8ByteSize < 4294967295) : Ordered text where
  placed pos hpos := by
    obtain ⟨p, hp, hplace⟩ := isPlace_of_le h hpos
    exact ⟨p, hp, hplace.hasPlace hpos⟩
  order := lt_iff_precedes h
  injective := place_injective h
  onto p hp := by
    obtain ⟨pos, hpos, hplace⟩ := exists_place_eq h hp
    refine ⟨pos, hpos, fun other => ⟨fun hother => place_injective h hother hplace, ?_⟩⟩
    rintro rfl
    exact hplace

/-- A position inside a character, an empty line, and the end of the text behind a line feed. -/
theorem places_ordered_blank :
    "é\n\nb\n".utf8ByteSize < 4294967295 ∧ Ordered "é\n\nb\n" ∧
      (ofText "é\n\nb\n").place 1 = .ok ⟨1, 2⟩ ∧ (ofText "é\n\nb\n").place 3 = .ok ⟨2, 1⟩ ∧
      HasPlace "é\n\nb\n" ⟨4, 1⟩ :=
  ⟨by decide, places_ordered _ (by decide), by decide +kernel, by decide +kernel,
    by decide, by decide, [], by decide +kernel, by decide⟩

end LineMap

end LoxLexer
