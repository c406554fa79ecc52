import LoxLexer.Proofs.ByteView
import LoxLexer.Proofs.Rows
import LoxLexer.Proofs.ScanEvents

/-!
# A pass takes one piece

Where a text begins, a cursor passes over the first piece of the text, says of it what the piece's
event is, and is trapped nowhere (`pass_eq`).
-/

namespace LoxLexer.Cursor

variable {source : String} {l : Location} {text rest cs : List Char} {c : Char}

/-! ## Parts of a source -/

/-- What is not trapped hands on its result. -/
theorem bind_ok {α β : Type} {x : Except Trap α} {a : α} (h : x = .ok a) (f : α → Except Trap β) :
    (x >>= f) = f a := by
  rw [h]
  rfl

theorem part_eq {start stop : Nat} {text : String} (h : Holds source start stop text) :
    part source start stop = .ok text := by
  rw [part, dif_pos ⟨h.start_le_stop, h.start_valid, h.stop_valid⟩]
  exact congrArg Except.ok (String.toByteArray_inj.1 h.bytes)

theorem part_rest (h : RestAt source l text) :
    part source l.offset source.utf8ByteSize = .ok (.ofList text) := by
  have hsize := h.after_size
  rw [← List.append_nil text] at h
  rw [← hsize]
  exact part_eq h.holds

theorem byte_eq {b : Char} {offset : Nat} (h : byte? source offset = some b) :
    byte source offset = .ok b := by
  rw [byte, h]

theorem seek_eq_none {test : Char → Bool} (htest : Bytewise test) (h : RestAt source l text)
    (htext : ∀ d ∈ text, test d = false) : seek source test l.offset = .ok none := by
  have hall : ∀ d ∈ text, (!test d) = true := fun d hd => by rw [htext d hd]; rfl
  have hstop := h.runEnd_eq htest.not
  rw [List.takeWhile_eq_self_iff.2 hall, h.after_size] at hstop
  rw [seek, part_rest h]
  refine congrArg Except.ok (dif_neg ?_)
  rw [hstop]
  exact Nat.lt_irrefl _

theorem seek_eq_some {test : Char → Bool} (htest : Bytewise test)
    (h : RestAt source l (text ++ c :: rest)) (htext : ∀ d ∈ text, test d = false)
    (hc : test c = true) :
    ∃ hstop, seek source test l.offset = .ok (some ⟨(l.after text).offset, hstop⟩) := by
  have hall : ∀ d ∈ text, (!test d) = true := fun d hd => by rw [htext d hd]; rfl
  have hstop := h.runEnd_eq htest.not
  rw [List.takeWhile_append_of_pos hall, List.takeWhile_cons_of_neg (by rw [hc]; decide),
    List.append_nil] at hstop
  have hlt : (l.after text).offset < source.utf8ByteSize := by
    have hsize := h.after.size
    have hpos := c.utf8Size_pos
    rw [byteSize_cons] at hsize
    omega
  refine ⟨⟨l.offset_le_offset_after text, hlt⟩, ?_⟩
  rw [seek, part_rest h]
  refine congrArg Except.ok ((dif_pos (by rw [hstop]; exact hlt)).trans ?_)
  exact congrArg some (Subtype.ext hstop)

/-! ## Cursors behind a text -/

/-- The cursor at a location, in a lexeme that begins at an offset. -/
def inside (start : Nat) (l : Location) : Cursor := ⟨start, l.offset, l.line⟩

/-- The cursor behind a text that begins at a location. -/
def behind (l : Location) (text : List Char) : Cursor := inside l.offset (l.after text)

theorem behind_append (l : Location) (a : List Char) {b : List Char} (h : '\n' ∉ b) :
    (⟨l.offset, ((l.after a).after b).offset, (l.after a).line⟩ : Cursor) = behind l (a ++ b) := by
  rw [behind, inside, Location.after_append]
  simp [Location.after, List.count_eq_zero.2 h]

theorem utf8Size_ascii (h : c.toNat < 128) : c.utf8Size = 1 :=
  Char.utf8Size_eq_one_iff.2 (UInt32.le_iff_toNat_le.2 (Nat.le_of_lt_succ h))

/-- Behind one more character of ASCII. -/
theorem behind_concat (l : Location) (text : List Char) (h : c.toNat < 128) (hc : c ≠ '\n') :
    (⟨l.offset, (l.after text).offset + 1, (l.after text).line⟩ : Cursor) =
      behind l (text ++ [c]) := by
  have hfree : '\n' ∉ [c] := by simpa using Ne.symm hc
  rw [← behind_append l text hfree]
  simp [Location.after, utf8Size_ascii h]

theorem span_behind (l : Location) (text : List Char) :
    (behind l text).span = .ok (l.spanOf text) :=
  congrArg (Except.mapError Trap.span) (Span.ofOffsets_eq_ok (l.offset_le_offset_after text))

theorem lexeme_behind (h : RestAt source l (text ++ rest)) :
    (behind l text).lexeme source = .ok (.ofList text) := part_eq h.holds

theorem token_behind (h : RestAt source l (text ++ rest)) (kind : Kind) (literal : Literal) :
    (behind l text).token source kind literal =
      .ok ((Piece.token kind text literal).event? l, behind l text) := by
  rw [token, lexeme_behind h, span_behind]
  rfl

/-! ## Lexemes -/

/-- What a pass over the piece gives that begins at a location. -/
def taken (l : Location) (p : Piece) : Except Trap (Option Event × Cursor) :=
  .ok (p.event? l, behind l p.text)

theorem next?_of_head {e : Char} (h : RestAt source (l.after text) (e :: cs)) (he : e.toNat < 128)
    (hline : e ≠ '\n') :
    (behind l text).next? source e = some (behind l (text ++ [e])) := by
  rw [← behind_concat l text he hline]
  exact if_pos ((h.byte?_eq_some_iff he).2 rfl)

theorem next?_of_not_head {e : Char} (h : RestAt source (l.after text) cs) (he : e.toNat < 128)
    (hhead : cs.head? ≠ some e) : (behind l text).next? source e = none :=
  if_neg fun hbyte => hhead ((h.byte?_eq_some_iff he).1 hbyte)

theorem operator_eq (h : RestAt source l (c :: cs)) (single double : Kind) :
    (behind l [c]).operator source single double =
      taken l (Cut.operator single double c cs).piece := by
  unfold Cut.operator
  split
  · rw [operator, next?_of_head h.after_char (by decide) (by decide)]
    exact token_behind h double .absent
  · rename_i hne
    have hhead : cs.head? ≠ some '=' := by
      intro hhead
      obtain ⟨ds, rfl⟩ := List.head?_eq_some_iff.1 hhead
      exact hne ds rfl
    rw [operator, next?_of_not_head h.after_char (by decide) hhead]
    exact token_behind h single .absent

/-- The cursor goes on behind the characters that pass a test. -/
theorem runEnd_behind {test : Char → Bool} (htest : Bytewise test) (hline : test '\n' = false)
    (h : RestAt source (l.after text) rest) :
    ({ behind l text with current := runEnd source test (behind l text).current } : Cursor) =
      behind l (text ++ rest.takeWhile test) := by
  have hstop := h.runEnd_eq htest
  have hfree : '\n' ∉ rest.takeWhile test := fun hmem => by
    rw [List.mem_takeWhile_imp hmem] at hline
    cases hline
  rw [← behind_append l text hfree, ← hstop]
  rfl

theorem word_eq (h : RestAt source l (c :: cs)) :
    (behind l [c]).word source = taken l (Cut.word c cs).piece := by
  have hsplit : c :: cs = ([c] ++ cs.takeWhile isWordPart) ++ cs.dropWhile isWordPart := by
    rw [List.append_assoc, List.takeWhile_append_dropWhile]
    rfl
  have hcursor := runEnd_behind bytewise_isWordPart (by decide) h.after_char
  rw [hsplit] at h
  rw [word, hcursor]
  simp only [lexeme_behind h]
  exact token_behind h _ .absent

/-! ## Numbers -/

theorem ofText?_text {n : Numeral} (hwhole : n.whole ≠ [])
    (h : ∀ c ∈ n.whole ++ n.fraction, IsDigit c) : Numeral.ofText? n.text = some n := by
  obtain ⟨whole, fraction⟩ := n
  have hw : ∀ d ∈ whole, d.isDigit = true := fun d hd =>
    isDigit_iff.2 (h d (List.mem_append_left _ hd))
  have hf : ∀ d ∈ fraction, d.isDigit = true := fun d hd =>
    isDigit_iff.2 (h d (List.mem_append_right _ hd))
  cases fraction with
  | nil =>
      rw [Numeral.ofText?, Numeral.text, List.takeWhile_eq_self_iff.2 hw,
        List.dropWhile_eq_nil_iff.2 hw]
      exact if_neg hwhole
  | cons e es =>
      have hpoint : ¬('.'.isDigit = true) := by decide
      rw [Numeral.ofText?, Numeral.text, List.takeWhile_append_of_pos hw,
        List.dropWhile_append_of_pos hw, List.takeWhile_cons_of_neg hpoint,
        List.dropWhile_cons_of_neg hpoint, List.append_nil]
      exact (if_neg hwhole).trans (if_pos (List.all_eq_true.2 hf))

theorem fraction_iff (h : RestAt source l rest) :
    (byte? source l.offset = some '.' ∧ (byte? source (l.offset + 1)).any Char.isDigit = true) ↔
      ∃ d ds, rest = '.' :: d :: ds ∧ d.isDigit = true := by
  rw [h.byte?_eq_some_iff (by decide)]
  constructor
  · rintro ⟨hhead, hdigit⟩
    obtain ⟨tail, rfl⟩ := List.head?_eq_some_iff.1 hhead
    have hany := h.after_char.any_byte? bytewise_isDigit
    cases tail with
    | nil => cases hany.symm.trans hdigit
    | cons d ds => exact ⟨d, ds, rfl, hany.symm.trans hdigit⟩
  · rintro ⟨d, ds, rfl, hd⟩
    have hany := h.after_char.any_byte? bytewise_isDigit
    exact ⟨rfl, hany.trans hd⟩

theorem fraction_of_digit {d : Char} (h : RestAt source (l.after text) ('.' :: d :: rest))
    (hd : d.isDigit = true) :
    (behind l text).fraction source =
      behind l (text ++ '.' :: d :: rest.takeWhile Char.isDigit) := by
  have hrest : RestAt source (l.after (text ++ ['.'])) (d :: rest) := by
    rw [Location.after_append]
    exact h.after_char
  have hdigits := runEnd_behind bytewise_isDigit (by decide) hrest
  rw [List.takeWhile_cons_of_pos hd, List.append_assoc,
    ← behind_concat l text (by decide) (by decide)] at hdigits
  exact (if_pos ((fraction_iff h).2 ⟨d, rest, rfl, hd⟩)).trans hdigits

theorem fraction_of_not_digit (h : RestAt source (l.after text) rest)
    (hrest : ∀ d ds, rest = '.' :: d :: ds → d.isDigit = false) :
    (behind l text).fraction source = behind l text := by
  refine if_neg fun hfraction => ?_
  obtain ⟨d, ds, hds, hd⟩ := (fraction_iff h).1 hfraction
  cases (hrest d ds hds).symm.trans hd

/-- The cursor finds the digits of the numeral that is cut. -/
theorem exists_numeral (h : RestAt source l (c :: cs)) (hc : IsDigit c) :
    ∃ n : Numeral, (Cut.number c cs).piece = .token .number n.text (.number n.value) ∧
      n.whole ≠ [] ∧ (∀ d ∈ n.whole ++ n.fraction, IsDigit d) ∧
      ((behind l [c]).digits source).fraction source = behind l n.text := by
  have hwhole : ∀ d ∈ c :: cs.takeWhile Char.isDigit, IsDigit d := by
    intro d hd
    rcases List.mem_cons.1 hd with rfl | hd
    · exact hc
    · exact Cut.digit_of_mem_takeWhile hd
  have hdigits : (behind l [c]).digits source = behind l (c :: cs.takeWhile Char.isDigit) :=
    runEnd_behind bytewise_isDigit (by decide) h.after_char
  have hrest : RestAt source (l.after (c :: cs.takeWhile Char.isDigit))
      (cs.dropWhile Char.isDigit) := by
    refine RestAt.after ?_
    rwa [List.cons_append, List.takeWhile_append_dropWhile]
  rw [hdigits]
  unfold Cut.number
  split
  · rename_i d rest heq
    rw [heq] at hrest
    split
    · rename_i hd
      refine ⟨_, rfl, List.cons_ne_nil _ _, ?_, fraction_of_digit hrest hd⟩
      intro e he
      rcases List.mem_append.1 he with he | he
      · exact hwhole e he
      · rcases List.mem_cons.1 he with rfl | he
        · exact isDigit_iff.1 hd
        · exact Cut.digit_of_mem_takeWhile he
    · rename_i hd
      refine ⟨_, rfl, List.cons_ne_nil _ _, by simpa using hwhole, ?_⟩
      refine fraction_of_not_digit hrest fun e es hes => ?_
      cases hes
      simpa using hd
  · rename_i hne
    refine ⟨_, rfl, List.cons_ne_nil _ _, by simpa using hwhole, ?_⟩
    exact fraction_of_not_digit hrest fun d ds hds => absurd hds (hne d ds)

theorem number_eq (h : RestAt source l (c :: cs)) (hc : IsDigit c) :
    (behind l [c]).number source = taken l (Cut.number c cs).piece := by
  obtain ⟨n, hpiece, hwhole, hdigits, hcursor⟩ := exists_numeral h hc
  have happend := Cut.number_append c cs
  rw [hpiece, Piece.text] at happend
  rw [← happend] at h
  have hvalue : Binary64.ofText (.ofList n.text) = n.value := by
    rw [Binary64.ofText, String.toList_ofList, ofText?_text hwhole hdigits]
    rfl
  rw [number, hcursor, lexeme_behind h, hpiece, ← hvalue]
  exact token_behind h _ _

/-! ## Comments -/

theorem comment_eq (h : RestAt source (l.after text) cs) :
    (behind l text).comment source = .ok (none, behind l (text ++ cs.takeWhile (· != '\n'))) := by
  have hfree := Cut.not_mem_takeWhile_ne '\n' cs
  have hbody : ∀ d ∈ cs.takeWhile (· != '\n'), (d == '\n') = false := by
    intro d hd
    rw [beq_eq_false_iff_ne]
    exact ne_of_mem_of_not_mem hd hfree
  have hsplit := List.takeWhile_append_dropWhile (p := (· != '\n')) (l := cs)
  rw [← behind_append l text hfree, comment]
  cases hrest : cs.dropWhile (· != '\n') with
  | nil =>
      rw [hrest, List.append_nil] at hsplit
      have hseek := seek_eq_none (.beq (d := '\n') (by decide)) h (hsplit ▸ hbody)
      have hsize := h.after_size
      rw [hsplit, hsize]
      exact bind_ok hseek _
  | cons d ds =>
      rw [hrest] at hsplit
      have hd : (d == '\n') = true := by
        have hhead := List.head?_dropWhile_not (· != '\n') cs
        simpa [hrest] using hhead
      obtain ⟨hstop, hseek⟩ := seek_eq_some (.beq (d := '\n') (by decide)) (hsplit ▸ h) hbody hd
      exact bind_ok hseek _

/-! ## Strings -/

theorem bytewise_endsRow : Bytewise fun b => b == '"' || b == '\n' := by
  refine .of_ascii fun b hb => ?_
  rcases Bool.or_eq_true_iff.1 hb with hb | hb
  · rw [beq_iff_eq.1 hb]
    decide
  · rw [beq_iff_eq.1 hb]
    decide

theorem not_endsRow (hquote : '"' ∉ text) (hline : '\n' ∉ text) :
    ∀ d ∈ text, (d == '"' || d == '\n') = false := by
  intro d hd
  rw [Bool.or_eq_false_iff, beq_eq_false_iff_ne, beq_eq_false_iff_ne]
  exact ⟨ne_of_mem_of_not_mem hd hquote, ne_of_mem_of_not_mem hd hline⟩

/-- In a row, the cursor finds the quote or the line feed that ends the row. -/
theorem closing_row (start : Nat) (h : RestAt source l (text ++ c :: rest)) (hquote : '"' ∉ text)
    (hline : '\n' ∉ text) (hc : (c == '"' || c == '\n') = true) :
    (inside start l).closing source =
      if c = '"' then .ok (true, ⟨start, (l.after text).offset + 1, l.line⟩)
      else closing source ⟨start, (l.after text).offset + 1, l.line + 1⟩ := by
  obtain ⟨hstop, hseek⟩ := seek_eq_some bytewise_endsRow h (not_endsRow hquote hline) hc
  have hascii : c.toNat < 128 := by
    rcases Bool.or_eq_true_iff.1 hc with hc | hc
    all_goals
      rw [beq_iff_eq.1 hc]
      decide
  have hbyte : byte? source (l.after text).offset = some c :=
    (h.after.byte?_eq_some_iff hascii).2 rfl
  rw [closing]
  exact (bind_ok hseek _).trans (bind_ok (byte_eq hbyte) _)

theorem closing_quote_row (start : Nat) (h : RestAt source l (text ++ '"' :: rest))
    (hquote : '"' ∉ text) (hline : '\n' ∉ text) :
    (inside start l).closing source = .ok (true, inside start (l.after (text ++ ['"']))) := by
  rw [closing_row start h hquote hline (by decide), Location.after_append]
  simp [inside, Location.after, List.count_eq_zero.2 hline]
  rfl

theorem closing_end_row (start : Nat) (h : RestAt source l text) (hquote : '"' ∉ text)
    (hline : '\n' ∉ text) :
    (inside start l).closing source = .ok (false, inside start (l.after text)) := by
  have hseek := seek_eq_none bytewise_endsRow h (not_endsRow hquote hline)
  have hstop : (⟨start, source.utf8ByteSize, l.line⟩ : Cursor) = inside start (l.after text) := by
    rw [inside, h.after_size]
    simp [Location.after, List.count_eq_zero.2 hline]
  rw [closing, ← hstop]
  exact bind_ok hseek _

theorem closing_newline (start : Nat) (h : RestAt source l (text ++ '\n' :: rest))
    (hquote : '"' ∉ text) (hline : '\n' ∉ text) :
    (inside start l).closing source =
      (inside start ((l.after text).after ['\n'])).closing source := by
  have hnext : (⟨start, (l.after text).offset + 1, l.line + 1⟩ : Cursor) =
      inside start ((l.after text).after ['\n']) := by
    simp [inside, Location.after, List.count_eq_zero.2 hline]
    rfl
  rw [closing_row start h hquote hline (by decide), ← hnext]
  rfl

theorem closing_quote (start : Nat) (h : RestAt source l (text ++ '"' :: rest))
    (hquote : '"' ∉ text) :
    (inside start l).closing source = .ok (true, inside start (l.after (text ++ ['"']))) := by
  induction text using Prompt.rows_induction generalizing l with
  | nil => exact closing_quote_row start h hquote List.not_mem_nil
  | last row _ hrow => exact closing_quote_row start h hquote hrow
  | newline row more hrow ih =>
      rw [List.mem_append, List.mem_cons, not_or, not_or] at hquote
      rw [List.append_assoc, List.cons_append] at h
      rw [closing_newline start h hquote.1 hrow, ih h.after.after_char hquote.2.2,
        ← Location.after_append, ← Location.after_append]
      simp

theorem closing_end (start : Nat) (h : RestAt source l text) (hquote : '"' ∉ text) :
    (inside start l).closing source = .ok (false, inside start (l.after text)) := by
  induction text using Prompt.rows_induction generalizing l with
  | nil => exact closing_end_row start h hquote List.not_mem_nil
  | last row _ hrow => exact closing_end_row start h hquote hrow
  | newline row more hrow ih =>
      rw [List.mem_append, List.mem_cons, not_or, not_or] at hquote
      rw [closing_newline start h hquote.1 hrow, ih h.after.after_char hquote.2.2,
        ← Location.after_append, ← Location.after_append]
      simp

theorem string_of_closed {body : List Char} (h : RestAt source l ('"' :: body ++ '"' :: rest))
    (hbody : '"' ∉ body) :
    (behind l ['"']).string source =
      taken l (.token .string ('"' :: body ++ ['"']) (.text (.ofList body))) := by
  have hclosing := closing_quote l.offset (RestAt.after_char h) hbody
  rw [← Location.after_append] at hclosing
  have hpart : part source (l.offset + 1) ((l.after ('"' :: body ++ ['"'])).offset - 1) =
      .ok (.ofList body) := by
    have hstart : (l.after ['"']).offset = l.offset + 1 := rfl
    have hstop : (l.after ('"' :: body ++ ['"'])).offset =
        ((l.after ['"']).after body).offset + 1 := by
      rw [Location.after_append, ← List.singleton_append, Location.after_append]
      rfl
    rw [← hstart, hstop, Nat.add_sub_cancel]
    exact part_eq (RestAt.after_char h).holds
  have htext : '"' :: body ++ '"' :: rest = ('"' :: body ++ ['"']) ++ rest := by simp
  rw [string]
  refine (bind_ok hclosing _).trans ((bind_ok hpart _).trans ?_)
  exact token_behind (htext ▸ h) .string _

theorem string_of_open (h : RestAt source l ('"' :: cs)) (hquote : '"' ∉ cs) :
    (behind l ['"']).string source = taken l (.unclosed ('"' :: cs)) := by
  have hclosing := closing_end l.offset h.after_char hquote
  rw [← Location.after_append] at hclosing
  rw [string]
  exact (bind_ok hclosing _).trans (bind_ok (span_behind l ('"' :: cs)) _)

/-- A string is taken up to its quote, or the rest of the source if there is none. -/
theorem string_eq (h : RestAt source l ('"' :: cs)) :
    (behind l ['"']).string source = taken l (Cut.quoted cs).piece := by
  by_cases hmem : '"' ∈ cs
  · obtain ⟨body, rest, rfl, hbody⟩ := List.eq_append_cons_of_mem hmem
    rw [Cut.quoted_text hbody]
    exact string_of_closed h hbody
  · rw [Cut.quoted_of_not_mem hmem]
    exact string_of_open h hmem

/-! ## Stray characters -/

theorem stray_eq (h : RestAt source l (c :: cs)) (hc : c ≠ '\n') (current : Nat) :
    (⟨l.offset, current, l.line⟩ : Cursor).stray source = taken l (.stray c) := by
  have hcursor : (⟨l.offset, l.offset + c.utf8Size, l.line⟩ : Cursor) = behind l [c] := by
    simp [behind, inside, Location.after, hc]
  have hline : l.line = (l.after [c]).line := congrArg line hcursor
  simp only [stray, part_rest h, bind, Except.bind, String.toList_ofList, List.headD_cons, hcursor,
    span_behind]
  rw [hline]
  rfl

/-! ## Which lexeme is taken -/

section

variable {b : Char} (d : Cursor)

theorem dispatch_of_not_mark (hm : b ∉ marks.map Prod.fst) (hq : b ≠ '"') (hn : b ≠ '\n') :
    dispatch source b d =
      if isBlank b then .ok (none, d)
      else if b.isDigit then d.number source
      else if isWordStart b then d.word source
      else d.stray source := by
  unfold dispatch
  split
  case h_8 => rw [Cut.ofMark?_eq_none hm]
  case h_7 => exact absurd rfl hn
  case h_6 => exact absurd rfl hq
  all_goals exact absurd (by decide) hm

theorem ne_newline (hb : b ∉ blanks) : b ≠ '\n' := by
  rintro rfl
  exact hb (by decide)

theorem dispatch_of_blank (h : b ∈ blanks) (hn : b ≠ '\n') :
    dispatch source b d = .ok (none, d) := by
  have hall : ∀ e ∈ blanks, e ∉ marks.map Prod.fst ∧ e ≠ '"' :=
    List.all_iff_forall_prop.1 (by decide)
  obtain ⟨hm, hq⟩ := hall b h
  rw [dispatch_of_not_mark d hm hq hn, if_pos (isBlank_iff.2 h)]

theorem dispatch_of_digit (h : IsDigit b) : dispatch source b d = d.number source := by
  obtain ⟨hq, hb, hm⟩ := not_special_iff.1 h.not_special
  rw [dispatch_of_not_mark d hm hq (ne_newline hb), if_neg (hb ∘ isBlank_iff.1),
    if_pos (isDigit_iff.2 h)]

theorem dispatch_of_letter (h : IsLetter b) : dispatch source b d = d.word source := by
  obtain ⟨hq, hb, hm⟩ := not_special_iff.1 h.not_special
  rw [dispatch_of_not_mark d hm hq (ne_newline hb), if_neg (hb ∘ isBlank_iff.1),
    if_neg (h.not_digit ∘ isDigit_iff.1), if_pos (isWordStart_iff.2 h)]

theorem dispatch_of_not_begins (h : ¬Begins b) : dispatch source b d = d.stray source := by
  simp only [Begins, not_or] at h
  obtain ⟨hb, hm, hq, hl, hd⟩ := h
  rw [dispatch_of_not_mark d hm hq (ne_newline hb), if_neg (hb ∘ isBlank_iff.1),
    if_neg (hd ∘ isDigit_iff.1), if_neg (hl ∘ isWordStart_iff.1)]

end

theorem dispatch_slash (h : RestAt source l ('/' :: cs)) :
    dispatch source '/' (behind l ['/']) = taken l (Cut.slash cs).piece := by
  unfold Cut.slash
  split
  · rename_i ds
    have hslash := next?_of_head h.after_char (by decide) (by decide)
    have hbody : RestAt source (l.after ['/', '/']) ds := h.after_char.after_char
    simp only [dispatch, hslash]
    exact comment_eq hbody
  · rename_i hne
    have hhead : cs.head? ≠ some '/' := by
      intro hhead
      obtain ⟨ds, rfl⟩ := List.head?_eq_some_iff.1 hhead
      exact hne ds rfl
    have hslash := next?_of_not_head h.after_char (by decide) hhead
    simp only [dispatch, hslash]
    exact token_behind h .slash .absent

theorem dispatch_of_mark (h : RestAt source l (c :: cs)) (hc : c ∈ marks.map Prod.fst) :
    dispatch source c (behind l [c]) = taken l (Cut.first c cs).piece := by
  simp only [marks, List.map_cons, List.map_nil, List.mem_cons, List.not_mem_nil, or_false] at hc
  rcases hc with rfl | rfl | rfl | rfl | rfl | rfl | rfl | rfl | rfl | rfl | rfl | rfl | rfl | rfl |
    rfl
  all_goals first
    | exact token_behind h _ _
    | exact dispatch_slash h
    | exact operator_eq h _ _

theorem dispatch_eq (h : RestAt source l (c :: cs)) (hc : Begins c) :
    dispatch source c ⟨l.offset, l.offset + 1, l.line⟩ = taken l (Cut.first c cs).piece := by
  by_cases hline : c = '\n'
  · subst hline
    rfl
  · have hbehind : (⟨l.offset, l.offset + 1, l.line⟩ : Cursor) = behind l [c] :=
      behind_concat l [] hc.ascii hline
    rw [hbehind]
    rcases hc with hc | hc | rfl | hc | hc
    · rw [dispatch_of_blank _ hc hline, Cut.first_of_blank hc]
      rfl
    · exact dispatch_of_mark h hc
    · exact string_eq h
    · rw [dispatch_of_letter _ hc, Cut.first_of_letter hc]
      exact word_eq h
    · rw [dispatch_of_digit _ hc, Cut.first_of_digit hc]
      exact number_eq h hc

/-! ## Passes -/

theorem pass_eq (h : RestAt source l (c :: cs)) (start : Nat) :
    (inside start l).pass source = taken l (Cut.first c cs).piece := by
  obtain ⟨b, hb, hshows⟩ := h.byte?_cons
  rw [pass]
  refine (bind_ok (byte_eq hb) _).trans ?_
  by_cases hbegins : Begins c
  · -- A byte that is no character of ASCII cannot belong to one.
    rcases hshows with ⟨rfl, _⟩ | ⟨_, hwide⟩
    · exact dispatch_eq h hbegins
    · exact absurd hbegins.ascii (Nat.not_lt.2 hwide)
  · rw [dispatch_of_not_begins _ (hshows.not_begins hbegins), Cut.first_of_not_begins hbegins]
    refine stray_eq h ?_ _
    rintro rfl
    exact hbegins (.inl (by decide))

end LoxLexer.Cursor
