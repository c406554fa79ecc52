import LoxLexer.Command.Run
import LoxLexer.Proofs.Reports

/-!
# Outcomes add up

An outcome after another has the greater status, and the output and the errors of both. On a console
that takes everything, with nothing logged, a script that is reported adds its outcome to what is
there, and leaves no failure (`report_console`).
-/

namespace LoxLexer

/-! ## Statuses -/

namespace Status

theorem combine_assoc (a b c : Status) : (a.combine b).combine c = a.combine (b.combine c) := by
  cases a <;> cases b <;> cases c <;> rfl

theorem combine_comm (a b : Status) : a.combine b = b.combine a := by
  cases a <;> cases b <;> rfl

theorem code_injective {a b : Status} (h : a.code = b.code) : a = b := by
  cases a <;> cases b <;> first | rfl | cases h

theorem combine_eq (a b : Status) : a.combine b = a ∨ a.combine b = b := by
  unfold combine
  split
  · exact .inr rfl
  · exact .inl rfl

@[simp] theorem success_combine (a : Status) : success.combine a = a := by cases a <;> rfl

@[simp] theorem combine_success (a : Status) : a.combine success = a := by cases a <;> rfl

end Status

/-! ## Sums -/

namespace Outcome

/-- Nothing has happened. -/
def nothing : Outcome := ⟨.success, .empty, ""⟩

instance : Append Outcome :=
  ⟨fun o p => ⟨o.status.combine p.status, o.output ++ p.output, o.errors ++ p.errors⟩⟩

/-- One after the other. -/
def sum (os : List Outcome) : Outcome := os.foldr (· ++ ·) nothing

section

variable (o p q : Outcome)

@[simp] theorem status_append : (o ++ p).status = o.status.combine p.status := rfl

@[simp] theorem output_append : (o ++ p).output = o.output ++ p.output := rfl

@[simp] theorem errors_append : (o ++ p).errors = o.errors ++ p.errors := rfl

theorem append_assoc : o ++ p ++ q = o ++ (p ++ q) := by
  simp only [HAppend.hAppend, Append.append, mk.injEq]
  exact ⟨Status.combine_assoc .., ByteArray.append_assoc, String.append_assoc⟩

@[simp] theorem nothing_append : nothing ++ o = o := by
  have h : nothing ++ o =
      ⟨Status.success.combine o.status, .empty ++ o.output, "" ++ o.errors⟩ := rfl
  simp [h]

@[simp] theorem append_nothing : o ++ nothing = o := by
  have h : o ++ nothing =
      ⟨o.status.combine .success, o.output ++ .empty, o.errors ++ ""⟩ := rfl
  simp [h]

end

@[simp] theorem sum_nil : sum [] = nothing := rfl

@[simp] theorem sum_cons (o : Outcome) (os : List Outcome) : sum (o :: os) = o ++ sum os := rfl

theorem sum_append (os ps : List Outcome) : sum (os ++ ps) = sum os ++ sum ps := by
  induction os with
  | nil => simp
  | cons o os ih => simp [ih, append_assoc]

theorem code_sum_le_iff {os : List Outcome} {n : Nat} :
    (sum os).status.code ≤ n ↔ ∀ o ∈ os, o.status.code ≤ n := by
  induction os with
  | nil => simp [nothing, Status.code]
  | cons o os ih =>
      rw [sum_cons, status_append, Status.code_combine, Nat.max_le, ih, List.forall_mem_cons]

theorem status_sum_mem (os : List Outcome) :
    (sum os).status = .success ∨ ∃ o ∈ os, o.status = (sum os).status := by
  induction os with
  | nil => exact .inl rfl
  | cons o os ih =>
      simp only [sum_cons, status_append]
      rcases o.status.combine_eq (sum os).status with heq | heq
      · exact .inr ⟨o, List.mem_cons_self, heq.symm⟩
      · rw [heq]
        rcases ih with hsuccess | ⟨p, hp, hstatus⟩
        · exact .inl hsuccess
        · exact .inr ⟨p, List.mem_cons_of_mem o hp, hstatus⟩

/-- The status of a sum is the greatest status of any, or success. -/
theorem status_sum_iff {os : List Outcome} {s : Status} :
    (sum os).status = s ↔
      (s = .success ∨ ∃ o ∈ os, o.status = s) ∧ ∀ o ∈ os, o.status.code ≤ s.code := by
  constructor
  · rintro rfl
    exact ⟨status_sum_mem os, code_sum_le_iff.1 (Nat.le_refl _)⟩
  · rintro ⟨hmem, hle⟩
    apply Status.code_injective
    apply Nat.le_antisymm (code_sum_le_iff.2 hle)
    rcases hmem with rfl | ⟨o, ho, rfl⟩
    · exact Nat.zero_le _
    · exact code_sum_le_iff.1 (Nat.le_refl _) o ho

theorem status_sum_perm {os ps : List Outcome} (h : os.Perm ps) :
    (sum os).status = (sum ps).status := by
  induction h with
  | nil => rfl
  | cons o _ ih => simp [ih]
  | swap o p os =>
      simp only [sum_cons, status_append, ← Status.combine_assoc]
      rw [Status.combine_comm p.status]
  | trans _ _ ih ih' => exact ih.trans ih'

theorem errors_sum_eq_iff {os : List Outcome} :
    (sum os).errors = "" ↔ ∀ o ∈ os, o.errors = "" := by
  induction os with
  | nil => simp [nothing]
  | cons o os ih => simp [ih]

/-! ## Consoles -/

/-- The console on which this has happened so far. It takes everything. -/
def console (o : Outcome) : Console := ⟨⟨none, o.output⟩, o.errors⟩

/-- The outcome of a run on a console that is empty and takes everything. -/
def ofRun (run : Console → Except Fault (Status × Console)) : Except Fault Outcome := do
  let (status, console) ← run (.withRoom none)
  return of status console

theorem ofRun_eq {run : Console → Except Fault (Status × Console)} {o : Outcome}
    (h : run nothing.console = .ok (o.status, o.console)) : ofRun run = .ok o := by
  have hconsole : Console.withRoom none = nothing.console := rfl
  rw [ofRun, hconsole, h]
  rfl

theorem success_append (a b e f : String) :
    (⟨.success, a.toUTF8, e⟩ : Outcome) ++ ⟨.success, b.toUTF8, f⟩ =
      ⟨.success, (a ++ b).toUTF8, e ++ f⟩ := by
  simp only [String.toUTF8_eq_toByteArray, String.toByteArray_append]
  rfl

/-- What comes of printing and nothing else. -/
def printed (text : String) : Outcome := ⟨.success, text.toUTF8, ""⟩

theorem printed_append (a b : String) : printed (a ++ b) = printed a ++ printed b :=
  (success_append a b "" "").symm

end Outcome

theorem print_console (text : String) (o : Outcome) :
    o.console.print text = ((o ++ .printed text).console, true) := by
  have hconsole : (o ++ .printed text).console =
      ⟨⟨none, o.output ++ text.toUTF8⟩, o.errors ++ ""⟩ := rfl
  rw [hconsole, String.append_empty]
  rfl

/-- Diagnostics are told as plain lines, and nothing is logged. -/
def Setting.plain (format : Format) : Setting := ⟨format, .plain, none⟩

theorem Console.log_plain (c : Console) (format : Format) (entries : List Log.Entry) :
    c.log (.plain format) entries = c := by
  simp [Console.log, Setting.plain, Log.shown, Console.tell]

/-- What a script adds whose token report is `text`. -/
def Script.outcome (s : Script) (text : String) : Outcome :=
  ⟨s.status, text.toUTF8, s.scan.diagnosticReport .plain s.name s.source⟩

theorem report_console {format : Format} {s : Script} {text : String}
    (h : s.scan.tokenReport format s.name s.source = .ok text) (o : Outcome) :
    o.console.report (.plain format) s = .ok (none, (o ++ s.outcome text).console) := by
  rw [Console.report]
  simp only [Setting.plain, h]
  rfl

/-- What a failure adds. -/
def Failure.outcome (f : Failure) : Outcome := ⟨f.status, .empty, f.report⟩

theorem fail_console (format : Format) (f : Failure) (o : Outcome) :
    o.console.fail (.plain format) f = (f.status, (o ++ f.outcome).console) := by
  have hconsole : (o ++ f.outcome).console =
      ⟨⟨none, o.output ++ .empty⟩, o.errors ++ f.report⟩ := rfl
  rw [Console.fail, Console.log_plain, hconsole, ByteArray.append_empty]
  rfl

end LoxLexer
