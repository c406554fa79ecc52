import LoxLexer.Proofs.CursorRun
import LoxLexer.Proofs.Lines
import LoxLexer.Proofs.Reports

/-!
# Reports tell of errors in their own words

The diagnostic of a lexical error is made from a template, and still its message is that of the
error, whatever the character is that the message names. So a plain report has a line for each error
of the source, in the order in which the errors are found (`errorReport_plain`).
-/

namespace LoxLexer

namespace LexicalError

/-! ## One error -/

/-- The diagnostic of the error has the error's message, line and span, and the message of an
unexpected character ends with the character. -/
structure Conveyed (e : LexicalError) : Prop where
  message : e.diagnostic.message = e.message
  line : e.diagnostic.line = e.line
  span : e.diagnostic.span = some e.span
  ending : ∀ {line c span}, e = .unexpectedCharacter line c span →
    e.message.toList.getLast? = some c

theorem message_diagnostic (e : LexicalError) : e.diagnostic.message = e.message := by
  cases e with
  | unexpectedCharacter line c span =>
      exact congrArg Diagnostic.message (diagnostic_unexpectedCharacter line c span)
  | unterminatedString line span =>
      exact congrArg Diagnostic.message (diagnostic_unterminatedString line span)

theorem conveyed (e : LexicalError) : e.Conveyed := by
  refine ⟨e.message_diagnostic, e.line_diagnostic, e.span_diagnostic, ?_⟩
  rintro line c span rfl
  have hmessage : (unexpectedCharacter line c span).message =
      "Unexpected character: " ++ String.singleton c := rfl
  rw [hmessage, String.toList_append, String.toList_singleton, List.getLast?_concat]

/-- The line of a plain report that tells of the error. -/
def reported (e : LexicalError) : String :=
  "[line " ++ toString e.line ++ "] Error: " ++ e.message ++ "\n"

theorem told_diagnostic (e : LexicalError) : e.diagnostic.told = e.reported := by
  rw [Diagnostic.told, e.message_diagnostic, e.line_diagnostic, reported]

/-- Where the error is found: at a character that begins nothing, or from a quote on to the end of
the source. -/
inductive FoundIn (source : String) : LexicalError → Prop
  | character {before after : List Char} {c : Char} (h : source.toList = before ++ c :: after)
      (hc : ¬Begins c) :
      FoundIn source (.unexpectedCharacter (1 + before.count '\n') c
        ((Location.start.after before).spanOf [c]))
  | unclosed {before body : List Char} (h : source.toList = before ++ '"' :: body)
      (hbody : '"' ∉ body) :
      FoundIn source (.unterminatedString (1 + source.toList.count '\n')
        ((Location.start.after before).spanOf ('"' :: body)))

/-- The errors of a part of the source that goes on to its end are found in the source. -/
theorem foundIn_of_mem {source : String} {before text : List Char}
    (h : source.toList = before ++ text) {e : LexicalError}
    (he : .error e ∈ eventsAt (Location.start.after before) text) : e.FoundIn source := by
  induction text using scan_induction generalizing before with
  | nil => simp at he
  | token kind chars literal rest hp ih =>
      rw [eventsAt_token hp, ← Location.after_append] at he
      rcases List.mem_cons.1 he with he | he
      · cases he
      · exact ih (h.trans (List.append_assoc ..).symm) he
  | trivia chars rest hp ih =>
      rw [eventsAt_trivia hp, ← Location.after_append] at he
      exact ih (h.trans (List.append_assoc ..).symm) he
  | unclosed cs hq =>
      rw [eventsAt_unclosed hq, ← Location.after_append, ← h] at he
      cases List.mem_singleton.1 he
      exact .unclosed h hq
  | stray c cs hc ih =>
      rw [eventsAt_stray hc, ← Location.after_append] at he
      rcases List.mem_cons.1 he with he | he
      · have hline : (before ++ [c]).count '\n' = before.count '\n' := by
          have hne : c ≠ '\n' := by
            rintro rfl
            exact hc (.inl (by decide))
          simp [hne]
        cases he
        rw [Location.after, hline]
        exact .character h hc
      · exact ih (h.trans (List.append_cons ..)) he

end LexicalError

/-! ## All errors of a source -/

theorem diagnostics_eq_map (source : String) :
    (scan source).diagnostics.toList = (lexicalErrors source).map LexicalError.diagnostic :=
  diagnostics_scan source

/-- A plain report of the diagnostics is one of the errors, each of which is found in the source and
by a pass over it. -/
structure ErrorsReported (name source : String) : Prop where
  diagnostics : (scan source).diagnostics.toList =
    (lexicalErrors source).map LexicalError.diagnostic
  report : (scan source).diagnosticReport .plain name source =
    .join ((lexicalErrors source).map LexicalError.reported)
  found : ∀ e ∈ lexicalErrors source, e.FoundIn source
  passes : ∀ {n c found}, Cursor.Run source n c found → c.current = source.utf8ByteSize →
    found.filterMap Event.error? = lexicalErrors source

theorem errorsReported (name source : String) : ErrorsReported name source where
  diagnostics := diagnostics_scan source
  report := by
    rw [Scan.diagnosticReport_plain, diagnostics_eq_map, List.map_map]
    exact congrArg String.join (List.map_congr_left fun e _ => e.told_diagnostic)
  found e he := by
    obtain ⟨event, hevent, herror⟩ := List.mem_filterMap.1 he
    cases event with
    | token t => cases herror
    | error d =>
        cases herror
        have hsource : source.toList = [] ++ source.toList := rfl
        exact LexicalError.foundIn_of_mem hsource hevent
  passes hrun hend := by
    rw [(hrun.found_eq hend).1]
    rfl

/-- What is told of an error is what the error says, and a plain report tells of all errors that are
found in the source. -/
theorem errorReport_plain :
    (∀ e : LexicalError, e.Conveyed) ∧ ∀ name source : String, ErrorsReported name source :=
  ⟨LexicalError.conveyed, errorsReported⟩

end LoxLexer
