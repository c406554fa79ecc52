import LoxLexer.Command.FileTree
import LoxLexer.Proofs.Outcomes
import Mathlib.Data.List.Perm.Basic

/-!
# Many scripts are the sum of each

What a script adds to a run depends on nothing but what is read at its path (`Part`). A run over
many scripts is the sum of these parts in order, and its status tells what became of the scripts.
-/

namespace LoxLexer

/-! ## What is read at a path -/

section Readings

variable (read : String → Except String ByteArray) (path : String)

def Unreadable : Prop := ∃ cause, read path = .error cause

def NotText : Prop := ∃ bytes, read path = .ok bytes ∧ String.fromUTF8? bytes = none

def ReadsAs (source : String) : Prop :=
  ∃ bytes, read path = .ok bytes ∧ String.fromUTF8? bytes = some source

/-- A text whose scan finds something wrong. -/
def Faulty : Prop := ∃ source, ReadsAs read path source ∧ (scan source).diagnostics.toList ≠ []

/-- A text whose scan finds nothing wrong. -/
def Clean : Prop := ∃ source, ReadsAs read path source ∧ (scan source).diagnostics.toList = []

/-- What is read is so short that every offset in it is a position, and not the last one. -/
def Fits : Prop := ∀ bytes, read path = .ok bytes → bytes.size < 4294967295

/-- What a script adds to a run. -/
inductive Part (format : Format) : Outcome → Prop
  | unreadable {cause : String} (h : read path = .error cause) :
      Part format (Failure.unreadable path cause).outcome
  | notText {bytes : ByteArray} (h : read path = .ok bytes)
      (htext : String.fromUTF8? bytes = none) : Part format (Failure.notUtf8 path).outcome
  | text {bytes : ByteArray} {source report : String} (h : read path = .ok bytes)
      (htext : String.fromUTF8? bytes = some source)
      (hreport : (scan source).tokenReport format path source = .ok report) :
      Part format ((Script.ofSource path source).outcome report)

end Readings

variable {format : Format} {read : String → Except String ByteArray} {path : String}
  {paths : List String}

theorem exists_part (format : Format) (h : Fits read path) : ∃ p, Part read path format p := by
  cases hread : read path with
  | error cause => exact ⟨_, .unreadable hread⟩
  | ok bytes =>
      cases htext : String.fromUTF8? bytes with
      | none => exact ⟨_, .notText hread htext⟩
      | some source =>
          have hsize : source.utf8ByteSize < 4294967295 := by
            rw [← String.size_toByteArray, toByteArray_of_fromUTF8? htext]
            exact h bytes hread
          obtain ⟨report, hreport⟩ := exists_tokenReport format path hsize
          exact ⟨_, .text hread htext hreport⟩

theorem exists_part_of_not_text (format : Format) (h : Unreadable read path ∨ NotText read path) :
    ∃ p, Part read path format p := by
  rcases h with ⟨cause, hread⟩ | ⟨bytes, hread, htext⟩
  · exact ⟨_, .unreadable hread⟩
  · exact ⟨_, .notText hread htext⟩

/-! ## One script -/

theorem Failure.report_ne_empty (f : Failure) : f.report ≠ "" := by
  simp [report]

theorem status_ofSource (name source : String) : (Script.ofSource name source).status =
    if (scan source).diagnostics.toList = [] then .success else .dataError := by
  have herrors := (scan source).diagnostics.hasErrors_iff_ne_nil
  simp only [Script.status, Script.ofSource, Scan.hasErrors, herrors]
  split <;> simp_all

theorem Scan.diagnosticReport_eq_empty_iff (s : Scan) (name source : String) :
    s.diagnosticReport .plain name source = "" ↔ s.diagnostics.toList = [] := by
  rw [Scan.diagnosticReport_plain, ← String.toList_eq_nil_iff, String.toList_join]
  cases s.diagnostics.toList <;> simp [Diagnostic.told]

namespace Part

variable {p : Outcome}

theorem status_eq_noInput_iff (h : Part read path format p) :
    p.status = .noInput ↔ Unreadable read path := by
  cases h with
  | unreadable h => simp [Unreadable, h, Failure.outcome, Failure.status]
  | notText h _ => simp [Unreadable, h, Failure.outcome, Failure.status]
  | text h _ _ =>
      simp only [Unreadable, h, Script.outcome, status_ofSource]
      split <;> simp

theorem status_eq_dataError_iff (h : Part read path format p) :
    p.status = .dataError ↔ NotText read path ∨ Faulty read path := by
  cases h with
  | unreadable h => simp [NotText, Faulty, ReadsAs, h, Failure.outcome, Failure.status]
  | notText h htext => simp [NotText, h, htext, Failure.outcome, Failure.status]
  | text h htext _ =>
      simp only [NotText, Faulty, ReadsAs, h, Script.outcome, status_ofSource]
      split <;> simp_all

theorem status_eq_success_iff (h : Part read path format p) :
    p.status = .success ↔ Clean read path := by
  cases h with
  | unreadable h => simp [Clean, ReadsAs, h, Failure.outcome, Failure.status]
  | notText h htext => simp [Clean, ReadsAs, h, htext, Failure.outcome, Failure.status]
  | text h htext _ =>
      simp only [Clean, ReadsAs, h, Script.outcome, status_ofSource]
      split <;> simp_all

theorem errors_eq_empty_iff (h : Part read path format p) :
    p.errors = "" ↔ Clean read path := by
  cases h with
  | unreadable h => simp [Clean, ReadsAs, h, Failure.outcome, Failure.report_ne_empty]
  | notText h htext => simp [Clean, ReadsAs, h, htext, Failure.outcome, Failure.report_ne_empty]
  | text h htext _ =>
      simp [Clean, ReadsAs, h, htext, Script.outcome, Script.ofSource,
        Scan.diagnosticReport_eq_empty_iff]

theorem output_eq_empty (h : Part read path format p)
    (hno : Unreadable read path ∨ NotText read path) : p.output = .empty := by
  cases h with
  | unreadable h => rfl
  | notText h _ => rfl
  | text h htext _ => simp [Unreadable, NotText, h, htext] at hno

/-- No other statuses come from scripts. -/
theorem status_mem (h : Part read path format p) :
    p.status = .success ∨ p.status = .dataError ∨ p.status = .noInput := by
  cases h with
  | unreadable h => exact .inr (.inr rfl)
  | notText h _ => exact .inr (.inl rfl)
  | text h _ _ =>
      simp only [Script.outcome, status_ofSource]
      split <;> simp

theorem code_le_success_iff (h : Part read path format p) :
    p.status.code ≤ Status.success.code ↔ Clean read path := by
  rw [← h.status_eq_success_iff]
  rcases h.status_mem with hs | hs | hs <;> simp [hs, Status.code]

theorem code_le_dataError_iff (h : Part read path format p) :
    p.status.code ≤ Status.dataError.code ↔ ¬Unreadable read path := by
  rw [← h.status_eq_noInput_iff]
  rcases h.status_mem with hs | hs | hs <;> simp [hs, Status.code]

theorem code_le_noInput_iff (h : Part read path format p) :
    p.status.code ≤ Status.noInput.code ↔ True := by
  rcases h.status_mem with hs | hs | hs <;> simp [hs, Status.code]

/-- On a console that takes everything, a script adds its part. -/
theorem conclude_console (h : Part read path format p) (o : Outcome) :
    o.console.conclude (.plain format) (Script.load path (read path)) =
      .ok (p.status, (o ++ p).console) := by
  cases h with
  | unreadable h =>
      rw [h, Script.load, Console.conclude, fail_console]
      rfl
  | notText h htext =>
      simp only [h, Script.load, htext, Console.conclude, fail_console]
      rfl
  | @text _ source report h htext hreport =>
      have hreported := report_console (s := Script.ofSource path source) hreport o
      simp only [h, Script.load, htext, Console.conclude, hreported]
      rfl

end Part

/-! ## Many scripts -/

/-- What each of the scripts adds. -/
def Parts (format : Format) (read : String → Except String ByteArray) (paths : List String)
    (parts : List Outcome) : Prop :=
  List.Forall₂ (fun path => Part read path format) paths parts

namespace Parts

variable {parts : List Outcome} {P : Outcome → Prop} {Q : String → Prop}

theorem exists_of_fits (format : Format) (h : ∀ path ∈ paths, Fits read path) :
    ∃ parts, Parts format read paths parts :=
  exists_forall₂ fun path hpath => exists_part format (h path hpath)

theorem forall_iff (h : Parts format read paths parts)
    (hiff : ∀ {path p}, Part read path format p → (P p ↔ Q path)) :
    (∀ p ∈ parts, P p) ↔ ∀ path ∈ paths, Q path := by
  induction h with
  | nil => simp
  | cons hp _ ih => simp [hiff hp, ih]

theorem exists_iff (h : Parts format read paths parts)
    (hiff : ∀ {path p}, Part read path format p → (P p ↔ Q path)) :
    (∃ p ∈ parts, P p) ↔ ∃ path ∈ paths, Q path := by
  induction h with
  | nil => simp
  | cons hp _ ih => simp [hiff hp, ih]

end Parts

/-- On a console that takes everything, scripts add the sum of their parts. -/
theorem concludeAll_console {parts : List Outcome} (h : Parts format read paths parts)
    (o : Outcome) :
    Console.concludeAll (.plain format) o.status o.console
        (paths.map fun path => Script.load path (read path)) =
      .ok ((o ++ .sum parts).status, (o ++ .sum parts).console) := by
  -- By the scripts, with all that the ones before them added in `o`.
  induction h generalizing o with
  | nil => rw [Outcome.sum_nil, Outcome.append_nothing]; rfl
  | @cons path p paths parts hp _ ih =>
      rw [List.map_cons, Console.concludeAll, hp.conclude_console o]
      have hrest := ih (o ++ p)
      rw [Outcome.append_assoc] at hrest
      exact hrest

/-- The outcome of scanning scripts, if everything is taken and nothing is logged. -/
def outcomeOf (format : Format) (read : String → Except String ByteArray) (paths : List String) :
    Except Fault Outcome :=
  Outcome.ofRun (scanScripts (.plain format) read paths)

theorem outcomeOf_eq {parts : List Outcome} (h : Parts format read paths parts) :
    outcomeOf format read paths = .ok (.sum parts) := by
  have hall := concludeAll_console h .nothing
  rw [Outcome.nothing_append] at hall
  apply Outcome.ofRun_eq
  rw [scanScripts, Console.log_plain]
  exact hall

/-! ## What a run tells of its scripts -/

/-- The outcome has the parts of the scripts, in order, and tells what became of them. -/
structure Tells (format : Format) (read : String → Except String ByteArray) (paths : List String)
    (o : Outcome) : Prop where
  parts : ∃ parts, Parts format read paths parts ∧ o = .sum parts
  success : o.status = .success ↔ ∀ path ∈ paths, Clean read path
  silent : o.errors = "" ↔ ∀ path ∈ paths, Clean read path
  noInput : o.status = .noInput ↔ ∃ path ∈ paths, Unreadable read path
  dataError : o.status = .dataError ↔
    (∀ path ∈ paths, ¬Unreadable read path) ∧ ∃ path ∈ paths, NotText read path ∨ Faulty read path

theorem Parts.tells_sum {parts : List Outcome} (h : Parts format read paths parts) :
    Tells format read paths (.sum parts) where
  parts := ⟨parts, h, rfl⟩
  success := by
    rw [Outcome.status_sum_iff, h.forall_iff Part.code_le_success_iff]
    simp
  silent := by
    rw [Outcome.errors_sum_eq_iff, h.forall_iff Part.errors_eq_empty_iff]
  noInput := by
    rw [Outcome.status_sum_iff, h.exists_iff Part.status_eq_noInput_iff,
      h.forall_iff Part.code_le_noInput_iff]
    simp
  dataError := by
    rw [Outcome.status_sum_iff, h.exists_iff Part.status_eq_dataError_iff,
      h.forall_iff Part.code_le_dataError_iff]
    simp [and_comm]

/-- A run over many scripts is the sum of runs over some of them and the others. Its status does not
depend on their order, and tells what became of them. Scripts that are no text print nothing, and do
not stop the others. -/
theorem scanScripts_sum (format : Format) (read : String → Except String ByteArray)
    (A B : List String) (h : ∀ path ∈ A ++ B, Fits read path) :
    ∃ a b, outcomeOf format read A = .ok a ∧ outcomeOf format read B = .ok b ∧
      outcomeOf format read (A ++ B) = .ok (a ++ b) ∧
      (a ++ b).status.code = max a.status.code b.status.code ∧
      (∀ C, C.Perm A → ∃ c, outcomeOf format read C = .ok c ∧ c.status = a.status) ∧
      Tells format read A a ∧ Tells format read B b ∧
      ∀ path, Unreadable read path ∨ NotText read path →
        ∃ c, outcomeOf format read (A ++ path :: B) = .ok c ∧ c.output = (a ++ b).output := by
  obtain ⟨as, has⟩ := Parts.exists_of_fits format fun path hpath =>
    h path (List.mem_append_left B hpath)
  obtain ⟨bs, hbs⟩ := Parts.exists_of_fits format fun path hpath =>
    h path (List.mem_append_right A hpath)
  refine ⟨.sum as, .sum bs, outcomeOf_eq has, outcomeOf_eq hbs, ?_, Status.code_combine .., ?_,
    has.tells_sum, hbs.tells_sum, ?_⟩
  · rw [← Outcome.sum_append]
    exact outcomeOf_eq (List.rel_append has hbs)
  · intro C hperm
    obtain ⟨cs, hcs, hsame⟩ := List.perm_comp_forall₂ hperm has
    exact ⟨.sum cs, outcomeOf_eq hcs, Outcome.status_sum_perm hsame⟩
  · intro path hno
    obtain ⟨p, hp⟩ := exists_part_of_not_text format hno
    have hall : Parts format read (A ++ path :: B) (as ++ p :: bs) :=
      List.rel_append has (.cons hp hbs)
    refine ⟨_, outcomeOf_eq hall, ?_⟩
    rw [Outcome.sum_append, Outcome.sum_cons]
    simp [hp.output_eq_empty hno]

/-- Nothing wrong, a file that is missing, bytes that are no text, and a stray character. -/
theorem scanScripts_sum_missing :
    let read : String → Except String ByteArray := fun path =>
      if path = "fine.lox" then .ok "1;".toUTF8
      else if path = "bytes.lox" then .ok ⟨#[255]⟩
      else if path = "stray.lox" then .ok "@".toUTF8
      else .error Refusal.missing.message
    ∃ a b, outcomeOf .text read ["fine.lox", "none.lox"] = .ok a ∧
      outcomeOf .text read ["bytes.lox", "stray.lox"] = .ok b ∧
      outcomeOf .text read ["fine.lox", "none.lox", "bytes.lox", "stray.lox"] = .ok (a ++ b) ∧
      (a ++ b).status.code = max a.status.code b.status.code ∧ a.status = .noInput ∧
      b.status = .dataError ∧
      ∃ c, outcomeOf .text read ["none.lox", "fine.lox"] = .ok c ∧ c.status = a.status := by
  intro read
  obtain ⟨a, b, ha, hb, hab, hcode, hperm, htells, htells', _⟩ :=
    scanScripts_sum .text read ["fine.lox", "none.lox"] ["bytes.lox", "stray.lox"]
      (by simp [Fits, read]; decide)
  have hmissing : Unreadable read "none.lox" := ⟨_, rfl⟩
  have hstatus : a.status = .noInput := htells.noInput.2 ⟨"none.lox", by simp, hmissing⟩
  have hbytes : NotText read "bytes.lox" := ⟨_, rfl, by decide +kernel⟩
  have hreadable : ∀ path ∈ ["bytes.lox", "stray.lox"], ¬Unreadable read path := by
    simp [Unreadable, read]
  have hstatus' : b.status = .dataError :=
    htells'.dataError.2 ⟨hreadable, "bytes.lox", by simp, .inl hbytes⟩
  exact ⟨a, b, ha, hb, hab, hcode, hstatus, hstatus', hperm _ (.swap ..)⟩

end LoxLexer
