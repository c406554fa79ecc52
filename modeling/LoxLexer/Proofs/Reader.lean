import LoxLexer.Proofs.Tiling

/-!
# Diagnostics, character by character

A `Reader` takes one character after the other and knows only whether it is in code, in a comment or
in a string. It knows nothing of lexemes. What it complains of, and the string that it is left in at
the end, are the diagnostics of the scan.
-/

namespace LoxLexer

/-! ## The automaton -/

inductive Mode
  | code
  /-- Code as well, behind a slash that a second slash makes a comment. -/
  | slash
  | comment
  | string (opening : Nat)
deriving DecidableEq

namespace Mode

/-- The mode behind a character that stands at a byte offset. -/
def next (offset : Nat) : Mode → Char → Mode
  | .code, '/' => .slash
  | .slash, '/' => .comment
  | .code, '"' => .string offset
  | .slash, '"' => .string offset
  | .code, _ => .code
  | .slash, _ => .code
  | .comment, '\n' => .code
  | .comment, _ => .comment
  | .string _, '"' => .code
  | .string opening, _ => .string opening

def isCode : Mode → Bool
  | .code => true
  | .slash => true
  | .comment => false
  | .string _ => false

end Mode

/-- The automaton's mode, the bytes that it has read, and the line that it is on. -/
structure Reader where
  mode : Mode
  offset : Nat
  line : Nat

instance (c : Char) : Decidable (Begins c) := inferInstanceAs (Decidable (_ ∨ _))

namespace Reader

def start : Reader := ⟨.code, 0, 1⟩

def read (r : Reader) (c : Char) : Reader :=
  ⟨r.mode.next r.offset c, r.offset + c.utf8Size, if c = '\n' then r.line + 1 else r.line⟩

def readAll (r : Reader) (text : List Char) : Reader := text.foldl read r

/-- In code, only the characters that begin a lexeme, and the quote, are known. -/
def Refuses (r : Reader) (c : Char) : Prop := r.mode.isCode ∧ ¬Begins c

instance (r : Reader) (c : Char) : Decidable (r.Refuses c) := inferInstanceAs (Decidable (_ ∧ _))

def complaint? (r : Reader) (c : Char) : Option Diagnostic :=
  if r.Refuses c then
    some ⟨r.line, some ⟨.ofNat r.offset, .ofNat c.utf8Size⟩,
      "Unexpected character: " ++ String.singleton c, 1001, .error⟩
  else none

def complaints (r : Reader) : List Char → List Diagnostic
  | [] => []
  | c :: cs => (r.complaint? c).toList ++ (r.read c).complaints cs

/-- At the end of the text an open string is an error, from its quote to the end. -/
def unclosed? (r : Reader) : Option Diagnostic :=
  match r.mode with
  | .string opening =>
    some ⟨r.line, some ⟨.ofNat opening, .ofNat (r.offset - opening)⟩, "Unterminated string.", 1002,
      .error⟩
  | _ => none

/-- All that the automaton says of a text and of its end. -/
def diagnostics (r : Reader) (text : List Char) : List Diagnostic :=
  r.complaints text ++ (r.readAll text).unclosed?.toList

/-! ## Reading on -/

variable {r : Reader}

@[simp] theorem readAll_nil : r.readAll [] = r := rfl

@[simp] theorem readAll_cons (c : Char) (cs : List Char) :
    r.readAll (c :: cs) = (r.read c).readAll cs := rfl

theorem readAll_append (a b : List Char) : r.readAll (a ++ b) = (r.readAll a).readAll b :=
  List.foldl_append

theorem complaints_append (a b : List Char) :
    r.complaints (a ++ b) = r.complaints a ++ (r.readAll a).complaints b := by
  induction a generalizing r with
  | nil => rfl
  | cons c cs ih => rw [List.cons_append, complaints, ih, complaints, List.append_assoc]; rfl

theorem diagnostics_append (a b : List Char) :
    r.diagnostics (a ++ b) = r.complaints a ++ (r.readAll a).diagnostics b := by
  rw [diagnostics, complaints_append, readAll_append, List.append_assoc]
  rfl

theorem diagnostics_cons (c : Char) (cs : List Char) :
    r.diagnostics (c :: cs) = (r.complaint? c).toList ++ (r.read c).diagnostics cs := by
  rw [diagnostics, complaints, List.append_assoc]
  rfl

theorem offset_readAll (text : List Char) : (r.readAll text).offset = r.offset + byteSize text := by
  induction text generalizing r with
  | nil => rfl
  | cons c cs ih => rw [readAll_cons, ih, byteSize_cons, ← Nat.add_assoc]; rfl

theorem line_readAll (text : List Char) : (r.readAll text).line = r.line + text.count '\n' := by
  induction text generalizing r with
  | nil => rfl
  | cons c cs ih =>
      rw [readAll_cons, ih, List.count_cons]
      by_cases hc : c = '\n' <;> simp [read, hc]
      omega

/-- The automaton complains of the characters that it refuses, each in the mode in which it comes to
it. -/
theorem complaints_eq_nil_iff (text : List Char) :
    r.complaints text = [] ↔
      ∀ before c after, text = before ++ c :: after → ¬(r.readAll before).Refuses c := by
  induction text generalizing r with
  | nil => simp [complaints]
  | cons d ds ih =>
      have hhead : (r.complaint? d).toList = [] ↔ ¬r.Refuses d := by
        rw [complaint?]
        split <;> simp_all
      rw [complaints, List.append_eq_nil_iff, hhead, ih]
      constructor
      · rintro ⟨hd, hds⟩ before c after heq
        cases before with
        | nil => cases heq; exact hd
        | cons e es => cases heq; exact hds es c after rfl
      · intro h
        exact ⟨h [] d ds rfl, fun before c after heq => h (d :: before) c after (heq ▸ rfl)⟩

theorem unclosed?_eq_none_iff : r.unclosed? = none ↔ ∀ opening, r.mode ≠ .string opening := by
  rw [unclosed?]
  cases r.mode <;> simp

/-! ## Runs of characters -/

/-- Characters that leave the mode as it is and are not refused in it. -/
theorem loop {text : List Char} (hmode : ∀ c ∈ text, ∀ offset, r.mode.next offset c = r.mode)
    (hknown : r.mode.isCode = true → ∀ c ∈ text, Begins c) :
    r.complaints text = [] ∧ (r.readAll text).mode = r.mode := by
  induction text generalizing r with
  | nil => exact ⟨rfl, rfl⟩
  | cons c cs ih =>
      have hread : (r.read c).mode = r.mode := hmode c List.mem_cons_self r.offset
      have hrefuses : ¬r.Refuses c := fun h => h.2 (hknown h.1 c List.mem_cons_self)
      obtain ⟨hcomplaints, hlast⟩ := ih (r := r.read c)
        (fun d hd => by rw [hread]; exact hmode d (List.mem_cons_of_mem _ hd))
        (fun h d hd => hknown (hread ▸ h) d (List.mem_cons_of_mem _ hd))
      refine ⟨?_, hlast.trans hread⟩
      rw [complaints, hcomplaints, complaint?, if_neg hrefuses]
      rfl

/-! ## Lexemes -/

end Reader

namespace Mode

variable {c : Char}

theorem next_code (hs : c ≠ '/') (hq : c ≠ '"') (offset : Nat) : next offset .code c = .code := by
  unfold next
  split <;> simp_all

theorem next_slash (h : c ≠ '/') (offset : Nat) : next offset .slash c = next offset .code c := by
  unfold next
  split <;> simp_all

theorem next_comment (h : c ≠ '\n') (offset : Nat) : next offset .comment c = .comment := by
  unfold next
  split <;> simp_all

theorem next_string (h : c ≠ '"') (opening offset : Nat) :
    next offset (.string opening) c = .string opening := by
  unfold next
  split <;> simp_all

/-- The mode reads the text as code: a slash is not followed by a second one, and a comment is at
its end. -/
inductive Settled : Mode → List Char → Prop
  | code {text} : Settled .code text
  | slash {text} (h : text.head? ≠ some '/') : Settled .slash text
  | comment {text} (h : text = [] ∨ ∃ cs, text = '\n' :: cs) : Settled .comment text

theorem Settled.diagnostics_eq {m : Mode} {text : List Char} (h : m.Settled text)
    (offset line : Nat) :
    Reader.diagnostics ⟨m, offset, line⟩ text = Reader.diagnostics ⟨.code, offset, line⟩ text := by
  cases h with
  | code => rfl
  | slash h =>
      cases text with
      | nil => rfl
      | cons c cs =>
          have hc : c ≠ '/' := fun hc => h (by rw [hc]; rfl)
          rw [Reader.diagnostics_cons, Reader.diagnostics_cons, Reader.read, Reader.read,
            next_slash hc]
          rfl
  | comment h =>
      rcases h with rfl | ⟨cs, rfl⟩
      · rfl
      · rw [Reader.diagnostics_cons, Reader.diagnostics_cons]
        rfl

end Mode

/-- The character begins a lexeme, but neither a comment nor a string. -/
structure Plain (c : Char) : Prop where
  begins : Begins c
  ne_slash : c ≠ '/'
  ne_quote : c ≠ '"'

instance (c : Char) : Decidable (Plain c) :=
  decidable_of_iff (Begins c ∧ c ≠ '/' ∧ c ≠ '"')
    ⟨fun h => ⟨h.1, h.2.1, h.2.2⟩, fun h => ⟨h.1, h.2, h.3⟩⟩

namespace Plain

variable {c : Char}

theorem of_blank (h : c ∈ blanks) : Plain c := by
  have hall : ∀ d ∈ blanks, Plain d := List.all_iff_forall_prop.1 (by decide)
  exact hall c h

theorem of_letter (h : IsLetter c) : Plain c := by
  refine ⟨.inr (.inr (.inr (.inl h))), ?_, ?_⟩
  all_goals
    rintro rfl
    exact absurd h (by decide)

theorem of_digit (h : IsDigit c) : Plain c := by
  refine ⟨.inr (.inr (.inr (.inr h))), ?_, ?_⟩
  all_goals
    rintro rfl
    exact absurd h (by decide)

theorem of_word (h : IsLetter c ∨ IsDigit c) : Plain c := h.elim of_letter of_digit

end Plain

namespace Reader

variable {r : Reader}

theorem loop_plain {text : List Char} (hr : r.mode = .code) (h : ∀ c ∈ text, Plain c) :
    r.complaints text = [] ∧ (r.readAll text).mode = .code := by
  rw [← hr]
  refine loop (fun c hc offset => ?_) fun _ c hc => (h c hc).begins
  rw [hr]
  exact Mode.next_code (h c hc).ne_slash (h c hc).ne_quote offset

theorem loop_comment {body : List Char} (hr : r.mode = .comment) (h : '\n' ∉ body) :
    r.complaints body = [] ∧ (r.readAll body).mode = .comment := by
  rw [← hr]
  refine loop (fun c hc offset => ?_) fun hcode => ?_
  · rw [hr]
    exact Mode.next_comment (ne_of_mem_of_not_mem hc h) offset
  · rw [hr] at hcode
    cases hcode

theorem loop_string {body : List Char} {opening : Nat} (hr : r.mode = .string opening)
    (h : '"' ∉ body) : r.complaints body = [] ∧ (r.readAll body).mode = .string opening := by
  rw [← hr]
  refine loop (fun c hc offset => ?_) fun hcode => ?_
  · rw [hr]
    exact Mode.next_string (ne_of_mem_of_not_mem hc h) opening offset
  · rw [hr] at hcode
    cases hcode

theorem complaint?_of_begins {c : Char} (h : Begins c) : r.complaint? c = none :=
  if_neg fun hrefuses => hrefuses.2 h

theorem reads_string {body : List Char} (hr : r.mode = .code) (h : '"' ∉ body) :
    r.complaints ('"' :: body ++ ['"']) = [] ∧
      (r.readAll ('"' :: body ++ ['"'])).mode = .code := by
  have hopen : (r.read '"').mode = .string r.offset := by rw [read, hr]; rfl
  obtain ⟨hcomplaints, hmode⟩ := loop_string hopen h
  constructor
  · rw [List.cons_append, complaints, complaints_append, hcomplaints, complaints,
      complaint?_of_begins (by decide), complaint?_of_begins (by decide)]
    rfl
  · rw [List.cons_append, readAll_cons, readAll_append, readAll_cons, readAll_nil, read, hmode]
    rfl

theorem reads_comment {body : List Char} (hr : r.mode = .code) (h : '\n' ∉ body) :
    r.complaints ('/' :: '/' :: body) = [] ∧
      (r.readAll ('/' :: '/' :: body)).mode = .comment := by
  have hopen : ((r.read '/').read '/').mode = .comment := by simp [read, hr, Mode.next]
  obtain ⟨hcomplaints, hmode⟩ := loop_comment hopen h
  refine ⟨?_, hmode⟩
  rw [complaints, complaints, hcomplaints, complaint?_of_begins (by decide),
    complaint?_of_begins (by decide)]
  rfl

theorem reads_slash (hr : r.mode = .code) :
    r.complaints ['/'] = [] ∧ (r.readAll ['/']).mode = .slash := by
  refine ⟨?_, by simp [read, hr, Mode.next]⟩
  rw [complaints, complaint?_of_begins (by decide)]
  rfl

end Reader

/-- The texts through which the automaton goes in different ways. -/
inductive Passage : List Char → Prop
  | plain {chars} (h : ∀ c ∈ chars, Plain c) : Passage chars
  | slash : Passage ['/']
  | string {body} (h : '"' ∉ body) : Passage ('"' :: body ++ ['"'])
  | comment {body} (h : '\n' ∉ body) : Passage ('/' :: '/' :: body)

theorem Lexeme.passage {p : Piece} (h : Lexeme p) : Passage p.text := by
  cases h with
  | @mark c kind hmark =>
      have hall : ∀ m ∈ marks, m.1 ≠ '/' → Plain m.1 := List.all_iff_forall_prop.1 (by decide)
      by_cases hslash : c = '/'
      · subst hslash
        exact .slash
      · refine .plain fun d hd => ?_
        cases List.mem_singleton.1 hd
        exact hall _ hmark hslash
  | @pair c kind hpair =>
      have hall : ∀ m ∈ pairs, Plain m.1 := List.all_iff_forall_prop.1 (by decide)
      refine .plain fun d hd => ?_
      simp only [Piece.text, List.mem_cons, List.not_mem_nil, or_false] at hd
      rcases hd with rfl | rfl
      · exact hall _ hpair
      · decide
  | string hbody => exact .string hbody
  | number _ hdigits =>
      refine .plain fun c hc => ?_
      rcases Numeral.mem_text hdigits hc with hc | rfl
      · exact .of_digit hc
      · decide
  | reserved word =>
      obtain ⟨c, cs, hspell, hc, hcs⟩ := word.spelling_chars
      refine .plain fun d hd => ?_
      rw [Piece.text, hspell] at hd
      rcases List.mem_cons.1 hd with rfl | hd
      · exact .of_letter hc
      · exact .of_word (hcs d hd)
  | identifier hc hcs _ =>
      refine .plain fun d hd => ?_
      rcases List.mem_cons.1 hd with rfl | hd
      · exact .of_letter hc
      · exact .of_word (hcs d hd)
  | comment hbody => exact .comment hbody
  | blank hblank =>
      refine .plain fun d hd => ?_
      cases List.mem_singleton.1 hd
      exact .of_blank hblank

namespace Reader

variable {r : Reader}

/-- A lexeme in code is read without a complaint, and code goes on behind it. -/
theorem reads_longest {p : Piece} {rest : List Char} (hr : r.mode = .code)
    (h : Longest p (p.text ++ rest)) :
    r.complaints p.text = [] ∧ (r.readAll p.text).mode.Settled rest := by
  have hpassage := h.lexeme.passage
  generalize htext : p.text = text at hpassage h ⊢
  cases hpassage with
  | plain hplain =>
      obtain ⟨hcomplaints, hmode⟩ := loop_plain hr hplain
      rw [hmode]
      exact ⟨hcomplaints, .code⟩
  | slash =>
      obtain ⟨hcomplaints, hmode⟩ := reads_slash hr
      rw [hmode]
      refine ⟨hcomplaints, .slash fun hhead => ?_⟩
      -- Two slashes would be a longer lexeme.
      obtain ⟨cs, rfl⟩ := List.head?_eq_some_iff.1 hhead
      have hle := h.length_le _ .slashes ⟨cs, rfl⟩
      rw [htext] at hle
      exact absurd hle (by decide)
  | string hbody =>
      obtain ⟨hcomplaints, hmode⟩ := reads_string hr hbody
      rw [hmode]
      exact ⟨hcomplaints, .code⟩
  | comment hbody =>
      obtain ⟨hcomplaints, hmode⟩ := reads_comment hr hbody
      cases h.lexeme.ext (.comment hbody) htext
      rw [hmode]
      exact ⟨hcomplaints, .comment h.comment_end⟩

/-! ## Whole texts -/

/-- The automaton in code at a location. -/
def codeAt (l : Location) : Reader := ⟨.code, l.offset, l.line⟩

theorem diagnostics_longest {p : Piece} {rest : List Char} (h : Longest p (p.text ++ rest))
    (l : Location) : (Reader.codeAt l).diagnostics (p.text ++ rest) =
      (Reader.codeAt (l.after p.text)).diagnostics rest := by
  obtain ⟨hcomplaints, hmode⟩ := reads_longest (r := .codeAt l) rfl h
  calc
    (Reader.codeAt l).diagnostics (p.text ++ rest) =
        ((Reader.codeAt l).readAll p.text).diagnostics rest := by
      rw [diagnostics_append, hcomplaints, List.nil_append]
    _ = Reader.diagnostics ⟨.code, ((Reader.codeAt l).readAll p.text).offset,
          ((Reader.codeAt l).readAll p.text).line⟩ rest := hmode.diagnostics_eq _ _
    _ = (Reader.codeAt (l.after p.text)).diagnostics rest := by
      rw [offset_readAll, line_readAll]
      rfl

end Reader

theorem Location.spanOf_eq {l : Location} {text : List Char}
    (h : (l.after text).offset ≤ 4294967295) :
    l.spanOf text = ⟨.ofNat l.offset, .ofNat (byteSize text)⟩ := by
  have hstart : (l.spanOf text).start = .ofNat l.offset := by
    rw [← first_spanOf h, Span.first, UInt32.ofNat_toNat]
  have hlength : (l.spanOf text).length = .ofNat (byteSize text) := by
    rw [← length_spanOf h, UInt32.ofNat_toNat]
  rw [← hstart, ← hlength]

/-- Of a text in code the automaton says what the events of the text are. -/
theorem Reader.diagnostics_codeAt (l : Location) (text : List Char)
    (h : (l.after text).offset ≤ 4294967295) :
    (Reader.codeAt l).diagnostics text = diagnosticsOf (eventsAt l text) := by
  induction text using scan_induction generalizing l with
  | nil => simp [diagnostics, complaints, Reader.codeAt, unclosed?]
  | token kind chars literal rest hp ih =>
      rw [Location.after_append] at h
      rw [eventsAt_token hp, diagnosticsOf_token, ← ih _ h]
      exact diagnostics_longest hp l
  | trivia chars rest hp ih =>
      rw [Location.after_append] at h
      rw [eventsAt_trivia hp, ← ih _ h]
      exact diagnostics_longest hp l
  | unclosed cs hq =>
      have hopen : ((Reader.codeAt l).read '"').mode = .string l.offset := rfl
      obtain ⟨hcomplaints, hmode⟩ := loop_string hopen hq
      have hoffset := offset_readAll (r := .codeAt l) ('"' :: cs)
      have hline := line_readAll (r := .codeAt l) ('"' :: cs)
      rw [eventsAt_unclosed hq, diagnosticsOf_error, LexicalError.diagnostic_unterminatedString,
        Location.spanOf_eq h, diagnostics, complaints, hcomplaints,
        complaint?_of_begins (by decide), unclosed?, hoffset, hline, readAll_cons, hmode]
      simp [Reader.codeAt, Location.after]
  | stray c cs hb ih =>
      rw [← List.singleton_append, Location.after_append] at h
      have hc := Nat.le_trans ((l.after [c]).offset_le_offset_after cs) h
      have hnewline : c ≠ '\n' := by
        rintro rfl
        exact hb (.inl (by decide))
      have hmode : Mode.next l.offset .code c = .code := by
        refine Mode.next_code ?_ ?_ _
        all_goals
          rintro rfl
          exact hb (by decide)
      have hread : (Reader.codeAt l).read c = .codeAt (l.after [c]) := by
        rw [read, codeAt, hmode]
        simp [codeAt, Location.after, hnewline]
      rw [eventsAt_stray hb, diagnosticsOf_error, LexicalError.diagnostic_unexpectedCharacter,
        Location.spanOf_eq hc, diagnostics_cons, hread, ih _ h, complaint?, if_pos ⟨rfl, hb⟩]
      simp [Reader.codeAt, Location.after, hnewline]

/-- The diagnostics of a scan are what the automaton says of the source. So there is none exactly if
it refuses no character and ends outside of strings. -/
theorem diagnostics_eq_reader (source : String) (h : source.utf8ByteSize ≤ 4294967295) :
    (scan source).diagnostics.toList =
        Reader.start.complaints source.toList ++
          (Reader.start.readAll source.toList).unclosed?.toList ∧
      ((scan source).hasErrors = false ↔
        (∀ before c after, source.toList = before ++ c :: after →
          ¬(Reader.start.readAll before).Refuses c) ∧
        ∀ opening, (Reader.start.readAll source.toList).mode ≠ .string opening) := by
  have hdiagnostics :
      (scan source).diagnostics.toList = Reader.start.diagnostics source.toList := by
    rw [diagnostics_scan]
    exact (Reader.diagnostics_codeAt .start source.toList (offset_after_toList source ▸ h)).symm
  refine ⟨hdiagnostics, ?_⟩
  have hnone : (scan source).hasErrors = false ↔ (scan source).diagnostics.toList = [] := by
    rw [← Bool.not_eq_true, Scan.hasErrors, Collection.hasErrors_iff_ne_nil, not_not]
  rw [hnone, hdiagnostics, Reader.diagnostics, List.append_eq_nil_iff,
    Reader.complaints_eq_nil_iff, Option.toList_eq_nil_iff, Reader.unclosed?_eq_none_iff]

/-- A quote in a comment, a slash that begins no comment, and slashes in a string that stays
open. -/
theorem diagnostics_eq_reader_slashes :
    "#// \"é\n/é\"//\n@".utf8ByteSize ≤ 4294967295 ∧
      (scan "#// \"é\n/é\"//\n@").diagnostics.toList =
        [⟨1, some ⟨0, 1⟩, "Unexpected character: #", 1001, .error⟩,
          ⟨2, some ⟨9, 2⟩, "Unexpected character: é", 1001, .error⟩,
          ⟨3, some ⟨11, 5⟩, "Unterminated string.", 1002, .error⟩] := by
  have hsize : "#// \"é\n/é\"//\n@".utf8ByteSize ≤ 4294967295 := by decide
  refine ⟨hsize, (diagnostics_eq_reader _ hsize).1.trans ?_⟩
  decide +kernel

end LoxLexer
