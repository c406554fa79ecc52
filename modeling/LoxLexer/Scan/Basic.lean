import LoxLexer.Diagnostic.Sink
import LoxLexer.Scan.Event

/-!
# Scanning

A scan goes over the events of a text in order. It keeps the tokens and reports the errors to a sink
as they come; no error stops it, and the tokens end with one that marks the end of the text.
-/

namespace LoxLexer

/-- A token is kept, and an error is reported at once. -/
def Sink.take {σ : Type} (sink : Sink σ) (soFar : Array Token × σ) : Event → Array Token × σ
  | .token token => (soFar.1.push token, soFar.2)
  | .error error => (soFar.1, sink.reportDiagnostic soFar.2 error.diagnostic)

/-- The tokens of a text, and what becomes of the sink when the errors are reported to it. -/
def scanInto {σ : Type} (sink : Sink σ) (source : String) (state : σ) : List Token × σ :=
  let (tokens, state) := (events source).foldl sink.take (#[], state)
  let stop := Location.start.after source.toList
  ((tokens.push (.eof stop.line stop.offset)).toList, state)

def lexicalErrors (source : String) : List LexicalError := (events source).filterMap Event.error?

structure Scan where
  tokens : List Token
  diagnostics : Collection
deriving DecidableEq

namespace Scan

def hasErrors (s : Scan) : Bool := s.diagnostics.hasErrors

def kinds (s : Scan) : List Kind := s.tokens.map Token.kind

def equal (a b : Scan) : Bool := a.tokens == b.tokens && a.diagnostics == b.diagnostics

instance : BEq Scan := ⟨equal⟩

end Scan

def scan (source : String) : Scan :=
  let (tokens, diagnostics) := scanInto Collection.sink source .empty
  ⟨tokens, diagnostics⟩

/-! ## Reports and scans in any order -/

/-- Something that is done with a sink. -/
inductive Feed
  | message (line : Nat) (text : String)
  | diagnostic (diagnostic : Diagnostic)
  | scan (source : String)

def Sink.feed {σ : Type} (sink : Sink σ) (state : σ) : Feed → σ
  | .message line text => sink.report state line text
  | .diagnostic diagnostic => sink.reportDiagnostic state diagnostic
  | .scan source => (scanInto sink source state).2

end LoxLexer
