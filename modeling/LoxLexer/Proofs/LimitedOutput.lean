import LoxLexer.Proofs.ScriptRuns

/-!
# Output that is not taken

A channel with a limit takes the beginning of what is put out. Every script is still visited: if its
report is taken whole it is concluded as on any console, and if not, all that is told of it is that
the output was not taken (`Told`).
-/

namespace LoxLexer

@[simp] theorem Status.combine_eq_ioError_iff {a b : Status} :
    a.combine b = .ioError ↔ a = .ioError ∨ b = .ioError := by
  cases a <;> cases b <;> decide

/-! ## Writing piece by piece -/

namespace Channel

theorem write_empty (ch : Channel) : ch.write "" = (ch, true) := by
  obtain ⟨room, taken⟩ := ch
  have hempty (n : Nat) : ByteArray.empty.extract 0 n = .empty :=
    extract_of_size_le (Nat.zero_le n)
  cases room <;> simp [write, hempty]

/-- Two pieces are taken like the one text they are: if the first is not taken whole, there is no
room for any of the second. -/
theorem write_append (ch : Channel) (a b : String) :
    ch.write (a ++ b) =
      if (ch.write a).2 then (ch.write a).1.write b else ((ch.write a).1, false) := by
  obtain ⟨room, taken⟩ := ch
  cases room with
  | none => simp [write, ByteArray.append_assoc]
  | some room =>
      simp only [write, String.toUTF8_eq_toByteArray, String.toByteArray_append,
        ByteArray.extract_append, Nat.zero_sub, ByteArray.size_append, decide_eq_true_eq]
      split
      · rename_i hfits
        have hsize : a.toByteArray.size + b.toByteArray.size ≤ room ↔
            b.toByteArray.size ≤ room - a.toByteArray.size := by omega
        rw [extract_of_size_le hfits, ByteArray.append_assoc, Nat.sub_sub, decide_eq_decide.2 hsize]
      · rename_i hfits
        have hroom : room - a.toByteArray.size = 0 := by omega
        have hsize : ¬a.toByteArray.size + b.toByteArray.size ≤ room := by omega
        rw [← Nat.sub_sub, hroom, Nat.zero_sub, ByteArray.extract_same, ByteArray.append_empty,
          decide_eq_false hsize]

/-- The pieces are written in turn, up to the first that is not taken whole. -/
def writeAll (ch : Channel) : List String → Channel × Bool
  | [] => (ch, true)
  | piece :: pieces =>
    let (next, fits) := ch.write piece
    if fits then next.writeAll pieces else (next, false)

/-- Where a text is cut into pieces does not show. -/
theorem writeAll_eq (ch : Channel) (pieces : List String) :
    ch.writeAll pieces = ch.write (.join pieces) := by
  induction pieces generalizing ch with
  | nil => rw [writeAll, String.join_nil, write_empty]
  | cons piece pieces ih =>
      rw [String.join_cons, write_append]
      simp only [writeAll, ih]

/-- Tokens may be written a line at a time. -/
theorem writeAll_lines (ch : Channel) (s : Scan) :
    ch.writeAll (s.tokens.map fun t => t.display ++ "\n") = ch.write s.tokenLines :=
  writeAll_eq ch _

end Channel

/-! ## A console with a limit -/

section

variable {format : Format} {read : String → Except String ByteArray} {path : String} {p : Outcome}
  {room : Nat}

/-- The console on which this has happened so far, if it takes so many bytes. It has the beginning
of the output. -/
def Outcome.limited (o : Outcome) (room : Nat) : Console :=
  ⟨⟨some (room - o.output.size), o.output.extract 0 room⟩, o.errors⟩

theorem print_limited (text : String) (o : Outcome) (room : Nat) :
    (o.limited room).print text =
      ((o ++ .printed text).limited room, decide (text.toUTF8.size ≤ room - o.output.size)) := by
  have hlimited : (o ++ .printed text).limited room =
      ⟨⟨some (room - (o.output ++ text.toUTF8).size), (o.output ++ text.toUTF8).extract 0 room⟩,
        o.errors ++ ""⟩ := rfl
  rw [hlimited, ByteArray.extract_append, Nat.zero_sub, ByteArray.size_append, ← Nat.sub_sub,
    String.append_empty]
  rfl

theorem report_limited {s : Script} {text : String}
    (h : s.scan.tokenReport format s.name s.source = .ok text) (o : Outcome) (room : Nat) :
    (o.limited room).report (.plain format) s =
      .ok (if text.toUTF8.size ≤ room - o.output.size
        then (none, (o ++ s.outcome text).limited room)
        else (some Console.noSpace, (o ++ .printed text).limited room)) := by
  have hlimited : (o ++ s.outcome text).limited room = ((o ++ .printed text).limited room).tell
      (s.scan.diagnosticReport .plain s.name s.source) := by
    simp [Outcome.limited, Script.outcome, Outcome.printed, Console.tell]
  have hreport : s.scan.tokenReport (Setting.plain format).format s.name s.source = .ok text := h
  simp only [Console.report, hreport, bind, Except.bind, print_limited, decide_eq_true_eq, hlimited]
  split <;> rfl

theorem fail_limited (format : Format) (f : Failure) (o : Outcome) (room : Nat) :
    (o.limited room).fail (.plain format) f = (f.status, (o ++ f.outcome).limited room) := by
  have hlimited : (o ++ f.outcome).limited room =
      ⟨⟨some (room - (o.output ++ .empty).size), (o.output ++ .empty).extract 0 room⟩,
        o.errors ++ f.report⟩ := rfl
  rw [Console.fail, Console.log_plain, hlimited, ByteArray.append_empty]
  rfl

/-! ## One script -/

/-- What becomes of a part if so many more bytes are taken. The output is what is put out, and not
what is taken of it. -/
def Outcome.within (room : Nat) (p : Outcome) : Outcome :=
  if p.output.size ≤ room then p else ⟨.success, p.output, ""⟩ ++ Console.noSpace.outcome

theorem Outcome.within_of_size_le (h : p.output.size ≤ room) : p.within room = p := if_pos h

theorem Outcome.within_of_lt_size (h : room < p.output.size) :
    p.within room = ⟨.success, p.output, ""⟩ ++ Console.noSpace.outcome :=
  if_neg (Nat.not_le_of_lt h)

@[simp] theorem Outcome.output_within (room : Nat) (p : Outcome) :
    (p.within room).output = p.output := by
  unfold within
  split
  · rfl
  · exact ByteArray.append_empty

theorem Outcome.status_within_iff (h : p.status ≠ .ioError) :
    (p.within room).status = .ioError ↔ room < p.output.size := by
  unfold within
  split
  · simp [h]
    omega
  · simp [Console.noSpace, Failure.outcome, Failure.status]
    omega

/-- On a console with a limit, a script adds what becomes of its part. -/
theorem Part.conclude_limited (h : Part read path format p) (o : Outcome) (room : Nat) :
    (o.limited room).conclude (.plain format) (Script.load path (read path)) =
      .ok ((p.within (room - o.output.size)).status,
        (o ++ p.within (room - o.output.size)).limited room) := by
  cases h with
  | unreadable h =>
      rw [h, Script.load, Console.conclude, fail_limited]
      rfl
  | notText h htext =>
      simp only [h, Script.load, htext, Console.conclude, fail_limited]
      rfl
  | @text _ source report h htext hreport =>
      have hreported := report_limited (s := Script.ofSource path source) hreport o room
      simp only [h, Script.load, htext, Console.conclude, hreported]
      by_cases hfits : report.toUTF8.size ≤ room - o.output.size
      · rw [if_pos hfits, Outcome.within_of_size_le hfits]
        rfl
      · rw [if_neg hfits, Outcome.within_of_lt_size (Nat.lt_of_not_le hfits)]
        simp only [bind, Except.bind, fail_limited, Outcome.append_assoc]
        rfl

end

/-! ## Many scripts -/

namespace Outcome

theorem errors_sum (os : List Outcome) : (sum os).errors = .join (os.map errors) := by
  induction os with
  | nil => rfl
  | cons o os ih => rw [sum_cons, errors_append, ih, List.map_cons, String.join_cons]

/-- Each part has the room that the ones before it leave. -/
def withinAll : Nat → List Outcome → List Outcome
  | _, [] => []
  | room, p :: ps => p.within room :: withinAll (room - p.output.size) ps

section

variable (room : Nat) (ps : List Outcome)

@[simp] theorem length_withinAll : (withinAll room ps).length = ps.length := by
  induction ps generalizing room with
  | nil => rfl
  | cons p ps ih => simp [withinAll, ih]

theorem output_sum_withinAll : (sum (withinAll room ps)).output = (sum ps).output := by
  induction ps generalizing room with
  | nil => rfl
  | cons p ps ih => simp [withinAll, ih]

theorem getElem?_withinAll (i : Nat) :
    (withinAll room ps)[i]? = ps[i]?.map (within (room - (sum (ps.take i)).output.size)) := by
  induction ps generalizing room i with
  | nil => rfl
  | cons p ps ih =>
      cases i with
      | zero => simp [withinAll, nothing]
      | succ i => simp [withinAll, ih, Nat.sub_sub]

end

variable {room : Nat} {ps : List Outcome}

theorem withinAll_of_size_le (h : (sum ps).output.size ≤ room) : withinAll room ps = ps := by
  induction ps generalizing room with
  | nil => rfl
  | cons p ps ih =>
      rw [sum_cons, output_append, ByteArray.size_append] at h
      rw [withinAll, within_of_size_le (by omega), ih (by omega)]

/-- If no part failed already, there is a failure just if not all of the output is taken. -/
theorem status_sum_withinAll_iff (h : ∀ p ∈ ps, p.status ≠ .ioError) :
    (sum (withinAll room ps)).status = .ioError ↔ room < (sum ps).output.size := by
  -- Either this part is not taken whole, or the rest does not fit into the room that is left.
  induction ps generalizing room with
  | nil => simp [withinAll, nothing]
  | cons p ps ih =>
      rw [List.forall_mem_cons] at h
      rw [withinAll, sum_cons, status_append, Status.combine_eq_ioError_iff, status_within_iff h.1,
        ih h.2, sum_cons, output_append, ByteArray.size_append]
      omega

end Outcome

section

variable {format : Format} {read : String → Except String ByteArray} {paths : List String}
  {parts : List Outcome}

/-- On a console with a limit, scripts add the sum of what becomes of their parts. -/
theorem concludeAll_limited (h : Parts format read paths parts) (o : Outcome) (room : Nat) :
    Console.concludeAll (.plain format) o.status (o.limited room)
        (paths.map fun path => Script.load path (read path)) =
      .ok ((o ++ .sum (Outcome.withinAll (room - o.output.size) parts)).status,
        (o ++ .sum (Outcome.withinAll (room - o.output.size) parts)).limited room) := by
  -- By the scripts, with all that the ones before them added in `o`.
  induction h generalizing o with
  | nil =>
      rw [Outcome.withinAll, Outcome.sum_nil, Outcome.append_nothing]
      rfl
  | @cons path p paths parts hp _ ih =>
      rw [List.map_cons, Console.concludeAll, hp.conclude_limited o room]
      have hrest := ih (o ++ p.within (room - o.output.size))
      rw [Outcome.append_assoc, Outcome.output_append, Outcome.output_within, ByteArray.size_append,
        ← Nat.sub_sub] at hrest
      exact hrest

/-- The outcome of a run on a console that is empty and takes so many bytes. -/
def Outcome.ofRunWithin (room : Nat) (run : Console → Except Fault (Status × Console)) :
    Except Fault Outcome := do
  let (status, console) ← run (.withRoom (some room))
  return of status console

theorem Outcome.ofRunWithin_eq {room : Nat} {run : Console → Except Fault (Status × Console)}
    {o : Outcome} (h : run (nothing.limited room) = .ok (o.status, o.limited room)) :
    ofRunWithin room run = .ok (of o.status (o.limited room)) := by
  have hempty : ByteArray.empty.extract 0 room = .empty :=
    extract_of_size_le (Nat.zero_le room)
  have hconsole : Console.withRoom (some room) = nothing.limited room := by
    simp [Console.withRoom, Channel.withRoom, limited, nothing, hempty]
  rw [ofRunWithin, hconsole, h]
  rfl

/-- The outcome of scanning scripts, if so many bytes of output are taken and nothing is logged. -/
def outcomeWithin (room : Nat) (format : Format) (read : String → Except String ByteArray)
    (paths : List String) : Except Fault Outcome :=
  Outcome.ofRunWithin room (scanScripts (.plain format) read paths)

theorem outcomeWithin_eq (h : Parts format read paths parts) (room : Nat) :
    outcomeWithin room format read paths =
      .ok (.of (Outcome.sum (Outcome.withinAll room parts)).status
        ((Outcome.sum (Outcome.withinAll room parts)).limited room)) := by
  have hall := concludeAll_limited h .nothing room
  rw [Outcome.nothing_append] at hall
  apply Outcome.ofRunWithin_eq
  rw [scanScripts, Console.log_plain]
  exact hall

end

/-! ## What is told of a script -/

/-- What is told of a script if so many bytes are taken and the output up to its end is `total`
bytes. -/
inductive Told (read : String → Except String ByteArray) (path : String) (room total : Nat) :
    String → Prop
  | unreadable {cause : String} (h : read path = .error cause) :
      Told read path room total (Failure.unreadable path cause).report
  | notText (h : NotText read path) : Told read path room total (Failure.notUtf8 path).report
  | taken {source : String} (h : ReadsAs read path source) (hfits : total ≤ room) :
      Told read path room total (.join ((scan source).diagnostics.toList.map Diagnostic.told))
  | cut {source : String} (h : ReadsAs read path source) (hcut : room < total) :
      Told read path room total Console.noSpace.report

section

variable {format : Format} {read : String → Except String ByteArray} {path : String}
  {paths : List String} {p : Outcome} {parts : List Outcome}

/-- Every report has at least the end of the source, and the line feed behind it. -/
theorem tokenReport_ne_empty {name source report : String}
    (h : (scan source).tokenReport format name source = .ok report) : report ≠ "" := by
  rw [Ne, ← String.toList_eq_nil_iff]
  cases format with
  | text =>
      cases h
      simp [Scan.tokenLines, tokens_scan]
  | json =>
      obtain ⟨document, _, h⟩ := exists_of_bind_eq_ok h
      cases h
      simp

theorem Part.status_ne_ioError (h : Part read path format p) : p.status ≠ .ioError := by
  rcases h.status_mem with hs | hs | hs <;> simp [hs]

theorem Part.told_within (h : Part read path format p) (room before : Nat) :
    Told read path room (before + p.output.size) (p.within (room - before)).errors := by
  cases h with
  | unreadable h => exact .unreadable h
  | notText h htext => exact .notText ⟨_, h, htext⟩
  | @text bytes source report h htext hreport =>
      have hreads : ReadsAs read path source := ⟨bytes, h, htext⟩
      have hsize : report.toUTF8.size ≠ 0 := by
        rw [String.toUTF8_eq_toByteArray, Ne, ByteArray.size_eq_zero_iff,
          String.toByteArray_eq_empty_iff]
        exact tokenReport_ne_empty hreport
      by_cases hfits : before + report.toUTF8.size ≤ room
      · have htold : ((Script.ofSource path source).outcome report).errors =
            .join ((scan source).diagnostics.toList.map Diagnostic.told) :=
          (scan source).diagnosticReport_plain path source
        rw [Outcome.within_of_size_le (Nat.le_sub_of_add_le' hfits), htold]
        exact .taken hreads hfits
      · have hcut : room - before < report.toUTF8.size := by omega
        rw [Outcome.within_of_lt_size hcut]
        exact .cut hreads (Nat.lt_of_not_le hfits)

theorem Parts.part_of_getElem? (h : Parts format read paths parts) {i : Nat}
    (hpath : paths[i]? = some path) (hp : parts[i]? = some p) : Part read path format p := by
  obtain ⟨hi, rfl⟩ := List.getElem?_eq_some_iff.1 hpath
  obtain ⟨hi', rfl⟩ := List.getElem?_eq_some_iff.1 hp
  exact List.Forall₂.get h hi hi'

/-- The outcome is what the scripts with these parts come to if so many bytes are taken. -/
structure Limits (room : Nat) (read : String → Except String ByteArray) (paths : List String)
    (parts : List Outcome) (o : Outcome) : Prop where
  output : o.output = (Outcome.sum parts).output.extract 0 room
  errors : ∃ told : List String, o.errors = .join told ∧ told.length = paths.length ∧
    ∀ i path text, paths[i]? = some path → told[i]? = some text →
      Told read path room (Outcome.sum (parts.take (i + 1))).output.size text
  failed : o.status = .ioError ↔ room < (Outcome.sum parts).output.size
  whole : (Outcome.sum parts).output.size ≤ room → o = .sum parts

theorem Parts.limits (h : Parts format read paths parts) (room : Nat) :
    Limits room read paths parts (.of (Outcome.sum (Outcome.withinAll room parts)).status
      ((Outcome.sum (Outcome.withinAll room parts)).limited room)) where
  output := by
    rw [← Outcome.output_sum_withinAll room]
    rfl
  errors := by
    refine ⟨(Outcome.withinAll room parts).map Outcome.errors, Outcome.errors_sum _, ?_, ?_⟩
    · simp [h.length_eq]
    · intro i path text hpath htext
      rw [List.getElem?_map, Outcome.getElem?_withinAll, Option.map_map, Option.map_eq_some_iff]
        at htext
      obtain ⟨p, hp, rfl⟩ := htext
      have hsize : (Outcome.sum (parts.take (i + 1))).output.size =
          (Outcome.sum (parts.take i)).output.size + p.output.size := by
        simp [List.take_add_one, hp, Outcome.sum_append]
      rw [hsize]
      exact (h.part_of_getElem? hpath hp).told_within room _
  failed := by
    apply Outcome.status_sum_withinAll_iff
    exact (h.forall_iff (Q := fun _ => True) fun hp => iff_of_true hp.status_ne_ioError trivial).2
      fun _ _ => trivial
  whole := by
    intro hfits
    rw [Outcome.withinAll_of_size_le hfits, Outcome.limited, extract_of_size_le hfits]
    rfl

/-- If so many bytes of output are taken, every script is still visited. The output is the beginning
of what all the token reports are. A script whose report is not taken whole adds one failure and no
diagnostics, and the others add what they add to any run. The status tells of the failure just if
there is one, and is as in any run if not. -/
theorem scanScripts_limited (room : Nat) (format : Format)
    (read : String → Except String ByteArray) (paths : List String)
    (h : ∀ path ∈ paths, Fits read path) :
    ∃ parts o, Parts format read paths parts ∧ outcomeOf format read paths = .ok (.sum parts) ∧
      outcomeWithin room format read paths = .ok o ∧ Limits room read paths parts o := by
  obtain ⟨parts, hparts⟩ := Parts.exists_of_fits format h
  exact ⟨parts, _, hparts, outcomeOf_eq hparts, outcomeWithin_eq hparts room, hparts.limits room⟩

end

/-- A file that is missing between two scripts with stray characters, and output that ends in the
second one. Of its stray character nothing is told. -/
theorem scanScripts_limited_stray :
    let read : String → Except String ByteArray := fun path =>
      if path = "fits.lox" then .ok "1;@".toUTF8
      else if path = "cut.lox" then .ok "#".toUTF8
      else .error Refusal.missing.message
    ∃ o, outcomeWithin 43 .text read ["fits.lox", "none.lox", "cut.lox"] = .ok o ∧
      o.output = "Number 1 1\nSemicolon ; null\nEof  null\nEof  ".toUTF8 ∧ o.status = .ioError ∧
      o.errors = "[line 1] Error: Unexpected character: @\n" ++
        (Failure.unreadable "none.lox" Refusal.missing.message).report ++
        Console.noSpace.report := by
  intro read
  obtain ⟨parts, o, hparts, hall, ho, hlimits⟩ :=
    scanScripts_limited 43 .text read ["fits.lox", "none.lox", "cut.lox"]
      (by simp [Fits, read]; decide)
  have houtput :
      (outcomeOf .text read ["fits.lox", "none.lox", "cut.lox"]).toOption.map Outcome.output =
        some "Number 1 1\nSemicolon ; null\nEof  null\nEof  null\n".toUTF8 := by decide +kernel
  have herrors :
      (outcomeWithin 43 .text read ["fits.lox", "none.lox", "cut.lox"]).toOption.map
        Outcome.errors = some ("[line 1] Error: Unexpected character: @\n" ++
          (Failure.unreadable "none.lox" Refusal.missing.message).report ++
          Console.noSpace.report) := by decide +kernel
  rw [hall, Except.toOption, Option.map_some, Option.some_inj] at houtput
  rw [ho, Except.toOption, Option.map_some, Option.some_inj] at herrors
  refine ⟨o, ho, ?_, ?_, herrors⟩
  · rw [hlimits.output, houtput]
    decide +kernel
  · rw [hlimits.failed, houtput]
    decide +kernel

end LoxLexer
