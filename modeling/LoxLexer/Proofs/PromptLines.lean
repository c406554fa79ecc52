import LoxLexer.Proofs.Columns
import LoxLexer.Proofs.Lines
import LoxLexer.Proofs.Newline
import LoxLexer.Proofs.Sessions

/-!
# The prompt scans what a script scans

The prompt scans every line of its input by itself (`Scans`). As long as no line has an unclosed
string, the lines have the tokens and the diagnostics that the whole text has, in the same columns; only the
line numbers differ.
-/

namespace LoxLexer

open LineMap (BeginsLine)

/-! ## Rows of a text at their places -/

/-- A line of a text, and what stands before it. -/
structure Row where
  before : List Char
  line : String

namespace Row

def number (r : Row) : Nat := 1 + r.before.count '\n'

/-- The event of the line alone, as it is in the text. -/
def put (r : Row) : Event → Event := Event.shift (byteSize r.before) (r.before.count '\n')

theorem not_unclosed_put (r : Row) {es : List Event} (h : ∀ e ∈ es, ¬e.Unclosed) :
    ∀ e ∈ es.map r.put, ¬e.Unclosed := by
  intro e he hun
  obtain ⟨d, hd, rfl⟩ := List.mem_map.1 he
  exact h d hd hun.of_shift

theorem eventsAt_line (r : Row) (h : byteSize (r.before ++ r.line.toList) ≤ 4294967295) :
    eventsAt (Location.start.after r.before) r.line.toList = (events r.line).map r.put := by
  have hstart : Location.start.after r.before =
      Location.start.shift (byteSize r.before) (r.before.count '\n') := rfl
  have hfits : (Location.start.after r.line.toList).offset + byteSize r.before ≤ 4294967295 := by
    rw [byteSize_append, byteSize_toList] at h
    rw [offset_after_toList]
    omega
  rw [hstart, eventsAt_shift _ _ hfits]
  rfl

structure StandsIn (r : Row) (text : List Char) : Prop where
  begins : BeginsLine r.before
  one_line : '\n' ∉ r.line.toList
  there : ∃ after, text = r.before ++ r.line.toList ++ after

end Row

namespace Prompt

/-- The trimmed rows of a text that goes on behind `before`. -/
def rowsAfter (before : List Char) : List (List Char) → List Row
  | [] => []
  | row :: rest => ⟨before, trimLineEnd (.ofList row)⟩ :: rowsAfter (before ++ row) rest

theorem map_line_rowsAfter (before : List Char) (rs : List (List Char)) :
    (rowsAfter before rs).map Row.line = rs.map fun row => trimLineEnd (.ofList row) := by
  induction rs generalizing before with
  | nil => rfl
  | cons row rest ih => rw [rowsAfter, List.map_cons, ih, List.map_cons]

theorem rowsAfter_newline {body : List Char} (h : '\n' ∉ body) (before rest : List Char) :
    rowsAfter before (rows '\n' (body ++ '\n' :: rest)) = ⟨before, trimLineEnd (.ofList body)⟩ ::
      rowsAfter (before ++ (body ++ ['\n'])) (rows '\n' rest) := by
  rw [rows_sep h, rowsAfter, trimLineEnd_newline]

/-- Rows are numbered in turn. -/
theorem map_number_rowsAfter (before text : List Char) :
    (rowsAfter before (rows '\n' text)).map (fun r => (r.line, r.number)) =
      ((rows '\n' text).map fun row => trimLineEnd (.ofList row)).zipIdx
        (1 + before.count '\n') := by
  induction text using rows_induction generalizing before with
  | nil => rfl
  | last body hne hbody => rw [rows_last hne hbody]; rfl
  | newline body rest hbody ih =>
      have hcount : (before ++ (body ++ ['\n'])).count '\n' = before.count '\n' + 1 := by
        simp [List.count_eq_zero.2 hbody]
      rw [rowsAfter_newline hbody, List.map_cons, ih, hcount, rows_sep hbody, List.map_cons,
        List.zipIdx_cons, trimLineEnd_newline]
      rfl

theorem standsIn_row {before body : List Char} (h : BeginsLine before) (hbody : '\n' ∉ body)
    (rest : List Char) :
    (Row.mk before (trimLineEnd (.ofList body))).StandsIn (before ++ (body ++ rest)) := by
  obtain ⟨tail, htail, _⟩ := exists_trimLineEnd body
  refine ⟨h, fun hmem => hbody ?_, tail ++ rest, ?_⟩
  · rw [htail]
    exact List.mem_append_left _ hmem
  · nth_rewrite 1 [htail]
    simp

theorem standsIn_rowsAfter {before text : List Char} (h : BeginsLine before) :
    ∀ r ∈ rowsAfter before (rows '\n' text), r.StandsIn (before ++ text) := by
  induction text using rows_induction generalizing before with
  | nil => exact fun r hr => absurd hr List.not_mem_nil
  | last body hne hbody =>
      rw [rows_last hne hbody]
      intro r hr
      cases List.mem_singleton.1 hr
      simpa using standsIn_row h hbody []
  | newline body rest hbody ih =>
      rw [rowsAfter_newline hbody]
      intro r hr
      rcases List.mem_cons.1 hr with rfl | hr
      · exact standsIn_row h hbody _
      · have hrest := ih (.inr ⟨before ++ body, (List.append_assoc ..).symm⟩) r hr
        simpa using hrest

/-! ## Events row by row -/

theorem eventsAt_row {before body : List Char} (hsize : byteSize (before ++ body) ≤ 4294967295)
    (hclosed : ∀ e ∈ events (trimLineEnd (.ofList body)), ¬e.Unclosed) :
    eventsAt (Location.start.after before) body =
      (events (trimLineEnd (.ofList body))).map (Row.put ⟨before, trimLineEnd (.ofList body)⟩) := by
  obtain ⟨tail, hbody, htail⟩ := exists_trimLineEnd body
  have hfits : byteSize (before ++ (trimLineEnd (.ofList body)).toList) ≤ 4294967295 := by
    rw [hbody, ← List.append_assoc, byteSize_append] at hsize
    omega
  have hline := Row.eventsAt_line ⟨before, trimLineEnd (.ofList body)⟩ hfits
  have hopen := Row.not_unclosed_put ⟨before, trimLineEnd (.ofList body)⟩ hclosed
  nth_rewrite 1 [hbody]
  rw [← hline] at hopen ⊢
  exact eventsAt_append_blanks htail _ _ hopen

/-- The events of a text are those of its rows, each put where its row stands. -/
theorem eventsAt_rows {before text : List Char} (hsize : byteSize (before ++ text) ≤ 4294967295)
    (hclosed : ∀ r ∈ rowsAfter before (rows '\n' text), ∀ e ∈ events r.line, ¬e.Unclosed) :
    eventsAt (Location.start.after before) text =
      (rowsAfter before (rows '\n' text)).flatMap fun r => (events r.line).map r.put := by
  induction text using rows_induction generalizing before with
  | nil => exact eventsAt_nil _
  | last body hne hbody =>
      rw [rows_last hne hbody, rowsAfter, rowsAfter] at hclosed ⊢
      have hline := hclosed _ List.mem_cons_self
      rw [eventsAt_row hsize hline, List.flatMap_cons, List.flatMap_nil, List.append_nil]
  | newline body rest hbody ih =>
      rw [rowsAfter_newline hbody] at hclosed ⊢
      have hrest : byteSize (before ++ (body ++ ['\n']) ++ rest) ≤ 4294967295 := by
        simpa using hsize
      have hfront : byteSize (before ++ body) ≤ 4294967295 := by
        rw [← List.append_assoc, byteSize_append] at hsize
        omega
      have hline := hclosed _ List.mem_cons_self
      have hrow := eventsAt_row hfront hline
      have hopen : ∀ e ∈ eventsAt (Location.start.after before) body, ¬e.Unclosed := by
        rw [hrow]
        exact Row.not_unclosed_put _ hline
      rw [eventsAt_append_newline _ _ _ hopen, hrow, ← Location.after_append,
        ← Location.after_append, ih hrest fun r hr => hclosed r (List.mem_cons_of_mem _ hr)]
      rfl

/-- The lines of a text at their places. -/
def placedLines (source : String) : List Row := rowsAfter [] (rows '\n' source.toList)

theorem map_line_placedLines (source : String) :
    (placedLines source).map Row.line = lines source := map_line_rowsAfter ..

theorem map_number_placedLines (source : String) :
    (placedLines source).map (fun r => (r.line, r.number)) = (lines source).zipIdx 1 :=
  map_number_rowsAfter [] source.toList

theorem standsIn_placedLines {source : String} :
    ∀ r ∈ placedLines source, r.StandsIn source.toList := standsIn_rowsAfter (.inl rfl)

theorem events_placedLines {source : String} (hsize : source.utf8ByteSize ≤ 4294967295)
    (hclosed : ∀ line ∈ lines source, ∀ d ∈ (scan line).diagnostics.toList, d.code ≠ 1002) :
    events source = (placedLines source).flatMap fun r => (events r.line).map r.put := by
  have hfits : byteSize ([] ++ source.toList) ≤ 4294967295 := by
    rwa [List.nil_append, byteSize_toList]
  refine eventsAt_rows hfits fun r hr e he => ?_
  have hline : r.line ∈ lines source := by
    rw [← map_line_placedLines]
    exact List.mem_map_of_mem hr
  refine not_unclosed_of_code_ne (fun d hd => hclosed r.line hline d ?_) he
  rwa [diagnostics_scan]

end Prompt

/-! ## A line alone and in its text -/

/-- Two spans begin in the same column: one on the first line of a line alone, the other on the line
of the source that has the number. -/
def SameColumn (source : String) (n : String × Nat) (p q : Span) : Prop :=
  ∃ column, (LineMap.ofText n.1).place p.start = .ok ⟨1, column⟩ ∧
    (LineMap.ofText source).place q.start = .ok ⟨n.2, column⟩

/-- A token of a line alone and the same token of the source. -/
structure SameToken (source : String) (n : String × Nat) (t u : Token) : Prop where
  kind : t.kind = u.kind
  lexeme : t.lexeme = u.lexeme
  literal : t.literal = u.literal
  line_alone : t.line = 1
  line : u.line = n.2
  column : SameColumn source n t.span u.span

/-- A diagnostic of a line alone and the same diagnostic of the source. -/
structure SameDiagnostic (source : String) (n : String × Nat) (d e : Diagnostic) : Prop where
  code : d.code = e.code
  message : d.message = e.message
  line_alone : d.line = 1
  line : e.line = n.2
  column : ∃ p q, d.span = some p ∧ e.span = some q ∧ SameColumn source n p q

/-- What a source has comes in parts, one for each of its lines, and every part is what the line has
by itself, one for one. -/
def InParts {α : Type} (f : Scan → List α) (same : String × Nat → α → α → Prop) (source : String)
    (lines : List String) : Prop :=
  ∃ parts, f (scan source) = parts.flatten ∧
    List.Forall₂ (fun n part => List.Forall₂ (same n) (f (scan n.1)) part) (lines.zipIdx 1) parts

/-- Scanning a source is scanning its lines one by one. -/
structure LineByLine (source : String) (lines : List String) : Prop where
  tokens : InParts Scan.lexemes (SameToken source) source lines
  diagnostics : InParts (fun s => s.diagnostics.toList) (SameDiagnostic source) source lines
  token_sequence :
    (scan source).lexemes.map (fun t => (t.kind, t.lexeme, t.literal)) =
      lines.flatMap fun line => (scan line).lexemes.map fun t => (t.kind, t.lexeme, t.literal)
  diagnostic_sequence :
    (scan source).diagnostics.toList.map (fun d => (d.code, d.message)) =
      lines.flatMap fun line => (scan line).diagnostics.toList.map fun d => (d.code, d.message)

namespace Row.StandsIn

variable {r : Row} {source : String}

theorem size_line_le (h : r.StandsIn source.toList) :
    r.line.utf8ByteSize ≤ source.utf8ByteSize := by
  obtain ⟨after, hsource⟩ := h.there
  rw [← byteSize_toList source, hsource, byteSize_append, byteSize_append, byteSize_toList]
  omega

/-- Every event of a line alone is on its first line, and stands in the column in which it stands in
the source. -/
theorem event (h : r.StandsIn source.toList) (hsize : source.utf8ByteSize < 4294967295) {e : Event}
    (he : e ∈ events r.line) :
    e.line = 1 ∧
      SameColumn source (r.line, r.number) e.span (e.span.shift (byteSize r.before)) := by
  have hline := Nat.lt_of_le_of_lt h.size_line_le hsize
  obtain ⟨before, text, after, hchars, hat⟩ := (tiling_events (Nat.le_of_lt hline)).exists_at he
  obtain ⟨rest, hsource⟩ := h.there
  have hone := h.one_line
  rw [hchars, List.mem_append, not_or] at hone
  have hbefore : '\n' ∉ before := fun hmem => hone.1 (List.mem_append_left _ hmem)
  have hstart : e.span.start = .ofOffset (byteSize before) := by
    rw [← hat.first_eq, Span.first, Position.ofOffset_toNat]
  refine ⟨?_, .ofOffset (byteSize before + 1), ?_, ?_⟩
  · rw [hat.line_eq, List.count_eq_zero.2 hone.1]
  · have hthere : r.line.toList = [] ++ before ++ (text ++ after) := by
      rw [hchars, List.append_assoc]
      rfl
    have hplace := LineMap.place_ofText hline hthere (.inl rfl) hbefore
    rw [hstart]
    exact hplace
  · have hthere : source.toList = r.before ++ before ++ (text ++ after ++ rest) := by
      rw [hsource, hchars]
      simp only [List.append_assoc]
    have hplace := LineMap.place_ofText hsize hthere h.begins hbefore
    have hfirst : (e.span.shift (byteSize r.before)).start =
        .ofOffset (byteSize (r.before ++ before)) := by
      rw [Span.shift, hat.first_eq, byteSize_append, Nat.add_comm]
    rw [hfirst]
    exact hplace

theorem token (h : r.StandsIn source.toList) (hsize : source.utf8ByteSize < 4294967295) {t : Token}
    (ht : t ∈ (scan r.line).lexemes) : SameToken source (r.line, r.number) t
      (t.shift (byteSize r.before) (r.before.count '\n')) := by
  rw [lexemes_scan] at ht
  obtain ⟨hline, hcolumn⟩ := h.event hsize (mem_tokensOf ht)
  exact
    { kind := rfl, lexeme := rfl, literal := rfl, line_alone := hline
      line := congrArg (· + r.before.count '\n') hline, column := hcolumn }

theorem diagnostic (h : r.StandsIn source.toList) (hsize : source.utf8ByteSize < 4294967295)
    {d : Diagnostic} (hd : d ∈ (scan r.line).diagnostics.toList) :
    SameDiagnostic source (r.line, r.number) d
      (d.shift (byteSize r.before) (r.before.count '\n')) := by
  rw [diagnostics_scan] at hd
  obtain ⟨e, he, rfl⟩ := mem_diagnosticsOf hd
  obtain ⟨hline, hcolumn⟩ := h.event hsize he
  have hdiagnostic : e.diagnostic.line = 1 := e.line_diagnostic.trans hline
  exact
    { code := rfl, message := rfl, line_alone := hdiagnostic
      line := congrArg (· + r.before.count '\n') hdiagnostic
      column := ⟨e.span, e.span.shift _, e.span_diagnostic,
        congrArg (Option.map (Span.shift _)) e.span_diagnostic, hcolumn⟩ }

end Row.StandsIn

namespace InParts

variable {α : Type} {f : Scan → List α} {same : String × Nat → α → α → Prop} {source : String}
  {lines : List String}

theorem of_rows {rs : List Row} (put : Row → α → α)
    (hscan : f (scan source) = rs.flatMap fun r => (f (scan r.line)).map (put r))
    (hlines : rs.map (fun r => (r.line, r.number)) = lines.zipIdx 1)
    (hsame : ∀ r ∈ rs, ∀ a ∈ f (scan r.line), same (r.line, r.number) a (put r a)) :
    InParts f same source lines := by
  rw [List.flatMap_def] at hscan
  refine ⟨_, hscan, ?_⟩
  rw [← hlines, List.forall₂_map_left_iff, List.forall₂_map_right_iff, List.forall₂_same]
  intro r hr
  rw [List.forall₂_map_right_iff, List.forall₂_same]
  exact hsame r hr

/-- What is the same in a line and in the source, the source has line after line. -/
theorem map_eq (h : InParts f same source lines) {β : Type} {key : α → β}
    (hkey : ∀ n a b, same n a b → key a = key b) :
    (f (scan source)).map key = lines.flatMap fun line => (f (scan line)).map key := by
  obtain ⟨parts, hparts, hsame⟩ := h
  rw [hparts]
  clear hparts
  generalize 1 = first at hsame
  induction lines generalizing first parts with
  | nil =>
      cases hsame
      rfl
  | cons line lines ih =>
      rw [List.zipIdx_cons] at hsame
      cases hsame with
      | @cons _ part _ parts hpart hparts =>
          have hkeys : (f (scan line)).map key = part.map key := by
            rw [← List.forall₂_eq_eq_eq, List.forall₂_map_left_iff, List.forall₂_map_right_iff]
            exact hpart.imp fun a b => hkey _ a b
          rw [List.flatten_cons, List.map_append, ← hkeys, ih _ _ hparts, List.flatMap_cons]

end InParts

/-! ## Sessions over the text -/

namespace Prompt

/-- A session over the source scans these lines, each by itself: it reads the bytes of each line and
of what is trimmed behind it, answers with the report of the line's scan, and adds nothing but its
prompts. -/
structure Scans (source : String) (lines : List String) : Prop where
  lined : Lined source.toUTF8.toList (splitLines source.toUTF8.toList)
  submitted : List.Forall₂ Submits (splitLines source.toUTF8.toList) lines
  answers : ∀ setting console,
    (splitLines source.toUTF8.toList).map (answer setting console) = lines.map fun line =>
      (console.log setting (Script.ofSource name line).scanEntries).report setting
        (Script.ofSource name line)
  outcome : ∀ format, ∃ reports,
    List.Forall₂ (fun line report => (scan line).tokenReport format name line = .ok report)
      lines reports ∧
    sessionOutcome format source.toUTF8 =
      .ok ⟨.success, (String.join (reports.map ("> " ++ ·)) ++ "> \n").toUTF8,
        .join (lines.flatMap fun line => (scan line).diagnostics.toList.map Diagnostic.told)⟩

theorem size_line_le {source line : String} (h : line ∈ lines source) :
    line.utf8ByteSize ≤ source.utf8ByteSize := by
  rw [← map_line_placedLines] at h
  obtain ⟨r, hr, rfl⟩ := List.mem_map.1 h
  exact (standsIn_placedLines r hr).size_line_le

theorem scans_lines {source : String} (hsize : source.utf8ByteSize < 4294967295) :
    Scans source (lines source) where
  lined := lined_iff.2 rfl
  submitted := forall₂_submits source
  answers setting console := by
    rw [← List.forall₂_eq_eq_eq, List.forall₂_map_left_iff, List.forall₂_map_right_iff]
    exact (forall₂_submits source).imp fun _ _ h => h.answer_eq setting console
  outcome format := by
    obtain ⟨reports, hreports⟩ := exists_forall₂ fun line hline =>
      exists_tokenReport format name (Nat.lt_of_le_of_lt (size_line_le hline) hsize)
    exact ⟨reports, hreports, sessionOutcome_toUTF8 hreports⟩

end Prompt

/-- A session over a text scans the lines of the text. As long as no string is left open in one of
them, they have the tokens and the diagnostics of the whole text. -/
theorem prompt_lineByLine (source : String) (hsize : source.utf8ByteSize < 4294967295)
    (hclosed : ∀ line ∈ Prompt.lines source, ∀ d ∈ (scan line).diagnostics.toList, d.code ≠ 1002) :
    Prompt.Scans source (Prompt.lines source) ∧ LineByLine source (Prompt.lines source) := by
  have hevents := Prompt.events_placedLines (Nat.le_of_lt hsize) hclosed
  have hnumbers := Prompt.map_number_placedLines source
  have htokens : InParts Scan.lexemes (SameToken source) source (Prompt.lines source) := by
    refine .of_rows (fun r => Token.shift (byteSize r.before) (r.before.count '\n')) ?_ hnumbers
      fun r hr t ht => (Prompt.standsIn_placedLines r hr).token hsize ht
    simp only [lexemes_scan, hevents, tokensOf_flatMap, Row.put, tokensOf_map_shift]
  have hdiagnostics : InParts (fun s => s.diagnostics.toList) (SameDiagnostic source) source
      (Prompt.lines source) := by
    refine .of_rows (fun r => Diagnostic.shift (byteSize r.before) (r.before.count '\n')) ?_
      hnumbers fun r hr d hd => (Prompt.standsIn_placedLines r hr).diagnostic hsize hd
    simp only [diagnostics_scan, hevents, diagnosticsOf_flatMap, Row.put, diagnosticsOf_map_shift]
  refine ⟨Prompt.scans_lines hsize, htokens, hdiagnostics, ?_, ?_⟩
  · exact htokens.map_eq fun n t u h => by rw [h.kind, h.lexeme, h.literal]
  · exact hdiagnostics.map_eq fun n d e h => by rw [h.code, h.message]

/-- A carriage return, a comment, an empty line, a stray character and no line feed at the end. -/
theorem prompt_lineByLine_comment :
    let source := "var a;\r\n// c\r\n\n@ \"b\""
    let lines := ["var a;", "// c", "", "@ \"b\""]
    Prompt.Scans source lines ∧ LineByLine source lines ∧
      Prompt.sessionOutcome .text source.toUTF8 =
        .ok ⟨.success, ("> Var var null\nIdentifier a null\nSemicolon ; null\nEof  null\n" ++
          "> Eof  null\n> Eof  null\n> String \"b\" b\nEof  null\n> \n").toUTF8,
          "[line 1] Error: Unexpected character: @\n"⟩ := by
  intro source lines
  have hlines : Prompt.lines source = lines := by decide +kernel
  obtain ⟨hscans, hsame⟩ :=
    prompt_lineByLine source (by decide) (by rw [hlines]; decide +kernel)
  rw [hlines] at hscans hsame
  refine ⟨hscans, hsame, ?_⟩
  obtain ⟨reports, hreports, hout⟩ := hscans.outcome .text
  have htext : lines.map (fun line => (scan line).tokenLines) = reports := by
    rw [← List.forall₂_eq_eq_eq, List.forall₂_map_left_iff]
    exact hreports.imp fun _ _ h => Except.ok.inj h
  have hprinted : String.join ((lines.map fun line => (scan line).tokenLines).map ("> " ++ ·)) =
      "> Var var null\nIdentifier a null\nSemicolon ; null\nEof  null\n" ++
        "> Eof  null\n> Eof  null\n> String \"b\" b\nEof  null\n" := by decide +kernel
  have htold : String.join (lines.flatMap fun line =>
      (scan line).diagnostics.toList.map Diagnostic.told) =
        "[line 1] Error: Unexpected character: @\n" := by decide +kernel
  rw [hout, ← htext, hprinted, htold]
  rfl

end LoxLexer
