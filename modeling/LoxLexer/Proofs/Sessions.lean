import LoxLexer.Proofs.Outcomes
import LoxLexer.Proofs.Rows
import Mathlib.Data.List.DropRight
import Mathlib.Data.List.Forall2

/-!
# A session is the sum of its lines

A session answers each line of its input by itself, up to the first that is no text. What it adds
for a line follows from the bytes of the line (`Answers`), so nothing of one line is left in the
answer to another. Over the bytes of a text it adds the reports of the text's lines
(`sessionOutcome_toUTF8`).
-/

namespace LoxLexer

namespace Prompt

/-! ## Lines -/

/-- The lines of the bytes. Each ends with its only line feed; the last may lack it, but is not
empty. -/
inductive Lined : List UInt8 → List (List UInt8) → Prop
  | nil : Lined [] []
  | last {body : List UInt8} (hne : body ≠ []) (h : 10 ∉ body) : Lined body [body]
  | newline {body rest : List UInt8} {lines : List (List UInt8)} (h : 10 ∉ body)
      (hrest : Lined rest lines) : Lined (body ++ 10 :: rest) ((body ++ [10]) :: lines)

section

variable {bytes : List UInt8} {lines : List (List UInt8)}

/-- A byte that is no line feed goes into the first line. -/
theorem Lined.cons {byte : UInt8} (hbyte : byte ≠ 10) (h : Lined bytes lines) :
    Lined (byte :: bytes) (prepend [byte] lines) := by
  have hmem {body : List UInt8} (hbody : 10 ∉ body) : 10 ∉ byte :: body := by
    simp [hbody, hbyte.symm]
  cases h with
  | nil => exact .last (List.cons_ne_nil _ _) (hmem List.not_mem_nil)
  | last _ h => exact .last (List.cons_ne_nil _ _) (hmem h)
  | newline h hrest => exact .newline (hmem h) hrest

theorem lined_rows (bytes : List UInt8) : Lined bytes (rows 10 bytes) := by
  induction bytes with
  | nil => exact .nil
  | cons byte bytes ih =>
      rw [rows]
      split
      · rename_i hbyte
        rw [hbyte]
        exact .newline List.not_mem_nil ih
      · rename_i hbyte
        exact ih.cons hbyte

theorem Lined.eq_rows (h : Lined bytes lines) : lines = rows 10 bytes := by
  induction h with
  | nil => rfl
  | last hne h => exact (rows_last hne h).symm
  | newline h _ ih => rw [rows_sep h, ← ih]

/-- The input has one way to be lines, and the session finds it. -/
theorem lined_iff : Lined bytes lines ↔ splitLines bytes = lines := by
  rw [splitLines_eq]
  constructor
  · intro h
    exact h.eq_rows.symm
  · rintro rfl
    exact lined_rows bytes

end

/-! ## The text of a line -/

section

variable {line : List UInt8} {text : String}

/-- The line is the text with line feeds and carriage returns behind it, and the text does not end
with one. -/
structure Submits (line : List UInt8) (text : String) : Prop where
  line_eq : ∃ ends, line = bytesOf (text.toList ++ ends) ∧ ∀ c ∈ ends, c = '\n' ∨ c = '\r'
  stripped : ∀ h : text.toList ≠ [], text.toList.getLast h ≠ '\n' ∧ text.toList.getLast h ≠ '\r'

def isText (line : List UInt8) : Bool := (String.fromUTF8? ⟨line.toArray⟩).isSome

theorem eq_bytesOf_of_fromUTF8? (h : String.fromUTF8? ⟨line.toArray⟩ = some text) :
    line = bytesOf text.toList := by
  rw [bytesOf_toList, byteArray_toList, String.toUTF8_eq_toByteArray, toByteArray_of_fromUTF8? h]

/-- The characters that are trimmed. -/
def endsLine (c : Char) : Bool := c == '\n' || c == '\r'

theorem endsLine_iff {c : Char} : endsLine c = true ↔ c = '\n' ∨ c = '\r' := by
  simp [endsLine]

theorem toList_trimLineEnd (text : String) :
    (trimLineEnd text).toList = text.toList.rdropWhile endsLine := by
  rw [trimLineEnd, String.toList_ofList]
  rfl

theorem rdropWhile_append_ends {ends : List Char} (h : ∀ c ∈ ends, c = '\n' ∨ c = '\r')
    (body : List Char) : (body ++ ends).rdropWhile endsLine = body.rdropWhile endsLine := by
  induction ends using List.reverseRecOn with
  | nil => rw [List.append_nil]
  | append_singleton ends c ih =>
      have hc : endsLine c = true := endsLine_iff.2 (h c (by simp))
      rw [← List.append_assoc, List.rdropWhile_concat_pos endsLine _ c hc]
      exact ih fun d hd => h d (List.mem_append_left [c] hd)

theorem submits_trimLineEnd (text : String) :
    Submits (bytesOf text.toList) (trimLineEnd text) where
  line_eq := by
    refine ⟨text.toList.rtakeWhile endsLine, ?_, fun c hc => ?_⟩
    · rw [toList_trimLineEnd, List.rdropWhile_append_rtakeWhile]
    · exact endsLine_iff.1 (List.mem_rtakeWhile_imp hc)
  stripped := by
    rw [toList_trimLineEnd]
    intro h
    have hlast := List.rdropWhile_last_not endsLine text.toList h
    rwa [endsLine_iff, not_or] at hlast

theorem submits_bytesOf (row : List Char) : Submits (bytesOf row) (trimLineEnd (.ofList row)) := by
  have h := submits_trimLineEnd (.ofList row)
  rwa [String.toList_ofList] at h

theorem submits_iff :
    Submits line text ↔ (String.fromUTF8? ⟨line.toArray⟩).map trimLineEnd = some text := by
  constructor
  · rintro ⟨⟨ends, rfl, hends⟩, hstripped⟩
    have hself : text.toList.rdropWhile endsLine = text.toList := by
      rw [List.rdropWhile_eq_self_iff]
      intro h
      rw [endsLine_iff, not_or]
      exact hstripped h
    have htrim : trimLineEnd (.ofList (text.toList ++ ends)) = text := by
      rw [← String.toList_inj, toList_trimLineEnd, String.toList_ofList,
        rdropWhile_append_ends hends, hself]
    rw [fromUTF8?_bytesOf, Option.map_some, htrim]
  · intro h
    obtain ⟨whole, hwhole, rfl⟩ := Option.map_eq_some_iff.1 h
    rw [eq_bytesOf_of_fromUTF8? hwhole]
    exact submits_trimLineEnd whole

theorem exists_submits (h : isText line = true) : ∃ text, Submits line text := by
  obtain ⟨whole, hwhole⟩ := Option.isSome_iff_exists.1 h
  exact ⟨trimLineEnd whole, submits_iff.2 (by rw [hwhole, Option.map_some])⟩

theorem Submits.isText (h : Submits line text) : isText line = true := by
  obtain ⟨whole, hwhole, _⟩ := Option.map_eq_some_iff.1 (submits_iff.1 h)
  rw [Prompt.isText, hwhole, Option.isSome_some]

theorem Submits.size_le (h : Submits line text) : text.utf8ByteSize ≤ line.length := by
  obtain ⟨ends, rfl, _⟩ := h.line_eq
  have hlength : (bytesOf text.toList).length = text.utf8ByteSize := by
    rw [bytesOf_toList, byteArray_toList]
    rfl
  rw [bytesOf_append, List.length_append, hlength]
  exact Nat.le_add_right _ _

/-- What is logged and reported of a line is what a script of its text would give. -/
theorem Submits.answer_eq (h : Submits line text) (setting : Setting) (console : Console) :
    answer setting console line =
      (console.log setting (Script.ofSource name text).scanEntries).report setting
        (Script.ofSource name text) := by
  obtain ⟨whole, hwhole, rfl⟩ := Option.map_eq_some_iff.1 (submits_iff.1 h)
  rw [answer, hwhole]

theorem answer_of_not_text (h : Prompt.isText line = false) (setting : Setting)
    (console : Console) : answer setting console line = .ok (some notUtf8, console) := by
  have hnone := Option.isNone_iff_eq_none.1 (Option.isSome_eq_false_iff.1 h)
  rw [answer, hnone]
  rfl

end

/-! ## The answer to a line -/

/-- What a session adds for a line that is a text: the prompt and what is reported of the text. -/
inductive Answers (format : Format) (line : List UInt8) : Outcome → Prop
  | intro {text report : String} (h : Submits line text)
      (hreport : (scan text).tokenReport format name text = .ok report) :
      Answers format line
        ⟨.success, ("> " ++ report).toUTF8, (scan text).diagnosticReport .plain name text⟩

section

variable {format : Format} {line : List UInt8} {p q : Outcome}

theorem exists_answers (format : Format) (htext : isText line = true)
    (hsize : line.length < 4294967295) : ∃ p, Answers format line p := by
  obtain ⟨text, h⟩ := exists_submits htext
  obtain ⟨report, hreport⟩ := exists_tokenReport format name (Nat.lt_of_le_of_lt h.size_le hsize)
  exact ⟨_, .intro h hreport⟩

theorem Answers.unique (hp : Answers format line p) (hq : Answers format line q) : p = q := by
  cases hp with
  | intro h hreport =>
      cases hq with
      | intro h' hreport' =>
          rw [submits_iff] at h h'
          cases h.symm.trans h'
          cases hreport.symm.trans hreport'
          rfl

theorem Answers.status_eq (h : Answers format line p) : p.status = .success := by
  cases h with
  | intro _ _ => rfl

theorem invite_console (o : Outcome) :
    invite o.console = (none, (o ++ .printed "> ").console) := by
  rw [invite, print_console]
  rfl

theorem close_console (o : Outcome) : close o.console = (none, (o ++ .printed "\n").console) := by
  rw [close, print_console]
  rfl

/-- Diagnostics of the line are told, and the session goes on as if there were none. -/
theorem Answers.converse_console (h : Answers format line p) (rest : List (List UInt8))
    (o : Outcome) : converse (.plain format) o.console (line :: rest) =
      converse (.plain format) (o ++ p).console rest := by
  cases h with
  | @intro text report h hreport =>
      have hreported := report_console (s := Script.ofSource name text) hreport (o ++ .printed "> ")
      have hconsole : (o ++ .printed "> " ++ (Script.ofSource name text).outcome report).console =
          (o ++ ⟨.success, ("> " ++ report).toUTF8,
            (scan text).diagnosticReport .plain name text⟩).console := by
        simp [Outcome.console, Outcome.printed, Script.outcome, Script.ofSource,
          ByteArray.append_assoc]
      simp only [converse, invite_console, h.answer_eq, Console.log_plain, hreported, hconsole]
      rfl

end

/-! ## A session -/

/-- What a session adds at its end: the line of the last prompt is ended if every line is a text,
and there is a failure if not. -/
def ending (all : Bool) : Outcome :=
  if all then ⟨.success, "> \n".toUTF8, ""⟩ else ⟨.ioError, "> ".toUTF8, notUtf8.report⟩

def sessionOutcome (format : Format) (input : ByteArray) : Except Fault Outcome :=
  Outcome.ofRun (session (.plain format) input)

section

variable {format : Format} {lines : List (List UInt8)} {parts : List Outcome}

/-- On a console that takes everything, the lines that are left add the sum of their answers. -/
theorem converse_console (h : List.Forall₂ (Answers format) (lines.takeWhile isText) parts)
    (o : Outcome) : converse (.plain format) o.console lines =
      .ok (if lines.all isText then (none, (o ++ .sum parts ++ .printed "> \n").console)
        else (some notUtf8, (o ++ .sum parts ++ .printed "> ").console)) := by
  -- By the lines, with all that was added before them in `o`. The session stops where `takeWhile`
  -- does.
  induction lines generalizing parts o with
  | nil =>
      cases h
      have hend : o ++ .printed "> " ++ .printed "\n" = o ++ .printed "> \n" := by
        rw [Outcome.append_assoc, ← Outcome.printed_append]
        rfl
      simp only [converse, invite_console, close_console, hend, Outcome.sum_nil,
        Outcome.append_nothing]
      rfl
  | cons line rest ih =>
      cases htext : isText line with
      | false =>
          rw [List.takeWhile_cons_of_neg (by simp [htext])] at h
          cases h
          simp only [converse, invite_console, answer_of_not_text htext, Outcome.sum_nil,
            Outcome.append_nothing, List.all_cons, htext]
          rfl
      | true =>
          rw [List.takeWhile_cons_of_pos htext] at h
          cases h with
          | cons hp hrest =>
              rw [hp.converse_console, ih hrest]
              simp [htext, Outcome.append_assoc]

/-- Whatever is wrong with the lines, the status of a session is that of its end. -/
theorem status_session {texts : List (List UInt8)} (h : List.Forall₂ (Answers format) texts parts)
    (all : Bool) :
    (Outcome.sum parts ++ ending all).status = if all then .success else .ioError := by
  have hsum : (Outcome.sum parts).status = .success := by
    induction h with
    | nil => rfl
    | cons hp _ ih => simp [hp.status_eq, ih]
  rw [Outcome.status_append, hsum, Status.success_combine]
  cases all <;> rfl

theorem sessionOutcome_eq {input : ByteArray}
    (h : List.Forall₂ (Answers format) ((splitLines input.toList).takeWhile isText) parts) :
    sessionOutcome format input =
      .ok (.sum parts ++ ending ((splitLines input.toList).all isText)) := by
  have hconverse := converse_console h .nothing
  rw [Outcome.nothing_append] at hconverse
  apply Outcome.ofRun_eq
  rw [session, hconverse, status_session h]
  cases (splitLines input.toList).all isText with
  | true => rfl
  | false =>
      have hend : .printed "> " ++ notUtf8.outcome = ending false := rfl
      rw [← hend, ← Outcome.append_assoc]
      exact congrArg Except.ok (fail_console format notUtf8 _)

/-- A session answers each line of its input by itself, up to the first that is no text. It is the
sum of the answers and of its end, and only a line that is no text makes it fail. -/
theorem session_sum (format : Format) (input : ByteArray)
    (h : ∀ line ∈ splitLines input.toList, line.length < 4294967295) :
    Lined input.toList (splitLines input.toList) ∧
      (∀ line p q, Answers format line p → Answers format line q → p = q) ∧
      ∃ parts o, sessionOutcome format input = .ok o ∧
        List.Forall₂ (Answers format) ((splitLines input.toList).takeWhile isText) parts ∧
        o = .sum parts ++ ending ((splitLines input.toList).all isText) ∧
        o.status = if (splitLines input.toList).all isText then .success else .ioError := by
  obtain ⟨parts, hparts⟩ := exists_forall₂ fun line hline =>
    exists_answers format (List.mem_takeWhile_imp hline)
      (h line (List.takeWhile_subset _ hline))
  exact ⟨lined_iff.2 rfl, fun line p q => Answers.unique, parts, _, sessionOutcome_eq hparts,
    hparts, rfl, status_session hparts _⟩

/-- A carriage return, a stray character, a byte that is no text, and a line that is not reached. -/
theorem session_sum_stray :
    ∃ parts o, sessionOutcome .text ⟨#[49, 13, 10, 64, 10, 255, 10, 49]⟩ = .ok o ∧
      List.Forall₂ (Answers .text) [[49, 13, 10], [64, 10]] parts ∧
      o = .sum parts ++ ending false ∧ o.status = .ioError := by
  have hlines : splitLines (ByteArray.mk #[49, 13, 10, 64, 10, 255, 10, 49]).toList =
      [[49, 13, 10], [64, 10], [255, 10], [49]] := by
    rw [byteArray_toList]
    rfl
  have htexts : [[49, 13, 10], [64, 10], [255, 10], [49]].takeWhile isText =
      [[49, 13, 10], [64, 10]] := by decide +kernel
  have hall : [[49, 13, 10], [64, 10], [255, 10], [49]].all isText = false := by decide +kernel
  obtain ⟨_, _, parts, o, hout, hparts, ho, hstatus⟩ :=
    session_sum .text ⟨#[49, 13, 10, 64, 10, 255, 10, 49]⟩ (by rw [hlines]; decide)
  rw [hlines, htexts] at hparts
  rw [hlines, hall] at ho hstatus
  exact ⟨parts, o, hout, hparts, ho, hstatus⟩

/-! ## A session over a text -/

theorem forall₂_submits (source : String) :
    List.Forall₂ Submits (splitLines source.toUTF8.toList) (Prompt.lines source) := by
  rw [splitLines_toUTF8, Prompt.lines, List.forall₂_map_left_iff, List.forall₂_map_right_iff,
    List.forall₂_same]
  exact fun row _ => submits_bytesOf row

/-- What a session adds for a line of a text that has this report. -/
def turn (line report : String) : Outcome :=
  ⟨.success, ("> " ++ report).toUTF8, .join ((scan line).diagnostics.toList.map Diagnostic.told)⟩

theorem forall₂_answers {bytes : List (List UInt8)} {lines reports : List String}
    (hlines : List.Forall₂ Submits bytes lines)
    (hreports : List.Forall₂
      (fun line report => (scan line).tokenReport format name line = .ok report) lines reports) :
    List.Forall₂ (Answers format) bytes (List.zipWith turn lines reports) := by
  induction hlines generalizing reports with
  | nil =>
      cases hreports
      exact .nil
  | @cons _ line _ _ h _ ih =>
      cases hreports with
      | @cons _ report _ _ hreport hreports =>
          have hanswers := Answers.intro h hreport
          rw [Scan.diagnosticReport_plain] at hanswers
          exact .cons hanswers (ih hreports)

theorem sum_turns {lines reports : List String} (h : lines.length = reports.length) :
    .sum (List.zipWith turn lines reports) ++ ending true =
      ⟨.success, (String.join (reports.map ("> " ++ ·)) ++ "> \n").toUTF8,
        .join (lines.flatMap fun line => (scan line).diagnostics.toList.map Diagnostic.told)⟩ := by
  induction lines generalizing reports with
  | nil =>
      rw [List.eq_nil_of_length_eq_zero h.symm]
      rfl
  | cons line lines ih =>
      cases reports with
      | nil => cases h
      | cons report reports =>
          rw [List.zipWith_cons_cons, Outcome.sum_cons, Outcome.append_assoc,
            ih (Nat.succ_inj.1 h), turn, Outcome.success_append, List.map_cons, String.join_cons,
            List.flatMap_cons, String.join_append]
          simp only [String.append_assoc]

/-- What a session puts out is what each line of the text adds, prompt by prompt. -/
theorem sessionOutcome_toUTF8 {source : String} {reports : List String}
    (h : List.Forall₂ (fun line report => (scan line).tokenReport format name line = .ok report)
      (Prompt.lines source) reports) :
    sessionOutcome format source.toUTF8 =
      .ok ⟨.success, (String.join (reports.map ("> " ++ ·)) ++ "> \n").toUTF8,
        .join ((Prompt.lines source).flatMap fun line =>
          (scan line).diagnostics.toList.map Diagnostic.told)⟩ := by
  have hsubmits := forall₂_submits source
  have htexts : ∀ line ∈ splitLines source.toUTF8.toList, isText line = true := by
    rw [splitLines_toUTF8, List.forall_mem_map]
    exact fun row _ => (submits_bytesOf row).isText
  have hparts := forall₂_answers hsubmits h
  rw [← List.takeWhile_eq_self_iff.2 htexts] at hparts
  rw [sessionOutcome_eq hparts, List.all_eq_true.2 htexts, sum_turns h.length_eq]

end

end Prompt

end LoxLexer
