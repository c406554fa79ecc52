import LoxLexer.Proofs.ScanEvents

/-!
# Sinks only observe

A scan gives every sink the same diagnostics and finds the same tokens, whatever the sink makes of
them. So two sinks that are fed the same steps differ only in what they keep of a diagnostic.
-/

namespace LoxLexer

namespace Sink

variable {σ α : Type}

/-- A sink that knows lines and messages only. -/
def ofReport (report : σ → Nat → String → σ) : Sink σ where
  report := report

def feedAll (sink : Sink σ) (state : σ) (steps : List Feed) : σ := steps.foldl sink.feed state

end Sink

/-! ## One scan -/

theorem scanInto_eq_scan {σ : Type} (sink : Sink σ) (source : String) (state : σ) :
    scanInto sink source state =
      ((scan source).tokens,
        (scan source).diagnostics.toList.foldl sink.reportDiagnostic state) := by
  rw [scanInto_eq, tokens_scan, diagnostics_scan]

/-! ## Sinks that keep something of each diagnostic -/

/-- What a step tells a sink of, in order. -/
def Feed.diagnostics : Feed → List Diagnostic
  | .message line text => [.plain line text]
  | .diagnostic d => [d]
  | .scan source => (LoxLexer.scan source).diagnostics.toList

/-- The sink puts an entry for each diagnostic behind the entries that it has. -/
structure Sink.Keeps {σ α : Type} (sink : Sink σ) (view : σ → List α) (entry : Diagnostic → α) :
    Prop where
  report : ∀ state line text,
    view (sink.report state line text) = view state ++ [entry (.plain line text)]
  reportDiagnostic : ∀ state d, view (sink.reportDiagnostic state d) = view state ++ [entry d]

namespace Sink.Keeps

variable {σ α : Type} {sink : Sink σ} {view : σ → List α} {entry : Diagnostic → α}

theorem foldl_reportDiagnostic (h : sink.Keeps view entry) (state : σ) (ds : List Diagnostic) :
    view (ds.foldl sink.reportDiagnostic state) = view state ++ ds.map entry := by
  induction ds generalizing state with
  | nil => simp
  | cons d ds ih => rw [List.foldl_cons, ih, h.reportDiagnostic, List.append_assoc]; rfl

theorem feed (h : sink.Keeps view entry) (state : σ) (step : Feed) :
    view (sink.feed state step) = view state ++ step.diagnostics.map entry := by
  cases step with
  | message line text => exact h.report state line text
  | diagnostic d => exact h.reportDiagnostic state d
  | scan source =>
      rw [Sink.feed, scanInto_eq_scan]
      exact h.foldl_reportDiagnostic state _

theorem feedAll (h : sink.Keeps view entry) (state : σ) (steps : List Feed) :
    view (sink.feedAll state steps) = view state ++ (steps.flatMap Feed.diagnostics).map entry := by
  induction steps generalizing state with
  | nil => simp [Sink.feedAll]
  | cons step steps ih =>
      rw [Sink.feedAll, List.foldl_cons, ← Sink.feedAll, ih, h.feed, List.append_assoc,
        List.flatMap_cons, List.map_append]

/-- More steps leave the entries where they are. -/
theorem isPrefix_feedAll (h : sink.Keeps view entry) (state : σ) (steps more : List Feed) :
    view (sink.feedAll state steps) <+: view (sink.feedAll state (steps ++ more)) := by
  have happend : sink.feedAll state (steps ++ more) =
      sink.feedAll (sink.feedAll state steps) more := List.foldl_append
  rw [happend, h.feedAll (sink.feedAll state steps)]
  exact List.prefix_append _ _

end Sink.Keeps

theorem Collection.keeps_sink : Collection.sink.Keeps Collection.toList id where
  report c line text := c.toList_add (.plain line text)
  reportDiagnostic := Collection.toList_add

theorem Transcript.keeps_sink :
    Transcript.sink.Keeps Array.toList fun d => (d.line, d.message) where
  report _ _ _ := Array.toList_push
  reportDiagnostic _ _ := Array.toList_push

/-! ## Collections and transcripts -/

/-- A collection and a transcript that were fed the same steps, before and after more of them. -/
structure InStep (steps more : List Feed) : Prop where
  told : (Collection.sink.feedAll .empty steps).toList = steps.flatMap Feed.diagnostics
  projected : (Transcript.sink.feedAll #[] steps).toList =
    (Collection.sink.feedAll .empty steps).toList.map fun d => (d.line, d.message)
  collection_kept : (Collection.sink.feedAll .empty steps).toList <+:
    (Collection.sink.feedAll .empty (steps ++ more)).toList
  transcript_kept : (Transcript.sink.feedAll #[] steps).toList <+:
    (Transcript.sink.feedAll #[] (steps ++ more)).toList
  hasErrors : (Collection.sink.feedAll .empty steps).hasErrors = true ↔
    (Collection.sink.feedAll .empty steps).toList ≠ []

theorem inStep_feedAll (steps more : List Feed) : InStep steps more where
  told := by
    rw [Collection.keeps_sink.feedAll, List.map_id]
    rfl
  projected := by
    rw [Transcript.keeps_sink.feedAll, Collection.keeps_sink.feedAll]
    simp
  collection_kept := Collection.keeps_sink.isPrefix_feedAll .empty steps more
  transcript_kept := Transcript.keeps_sink.isPrefix_feedAll #[] steps more
  hasErrors := Collection.hasErrors_iff_ne_nil _

/-- The tokens of a scan do not depend on the sink, whose state becomes the fold of its own
transition over the diagnostics. A collection and a transcript stay in step. -/
theorem sinks_observe :
    (∀ {σ : Type} (sink : Sink σ) (source : String) (state : σ),
      scanInto sink source state =
        ((scan source).tokens,
          (scan source).diagnostics.toList.foldl sink.reportDiagnostic state)) ∧
    (∀ {σ : Type} (report : σ → Nat → String → σ) (source : String) (state : σ),
      scanInto (.ofReport report) source state =
        ((scan source).tokens,
          (scan source).diagnostics.toList.foldl (fun s d => report s d.line d.message) state)) ∧
    ∀ steps more : List Feed, InStep steps more :=
  ⟨scanInto_eq_scan, fun report => scanInto_eq_scan (.ofReport report), inStep_feedAll⟩

end LoxLexer
