import LoxLexer.Diagnostic.Basic

/-!
# Sinks

A sink is told of diagnostics and changes its own state, and nothing else: whoever reports to it
gets no answer. A collection keeps diagnostics whole; a sink that knows lines and messages only is
told of the line and the message of a diagnostic.
-/

namespace LoxLexer

/-- What a state becomes when a message or a diagnostic is reported. -/
structure Sink (σ : Type) where
  report : σ → Nat → String → σ
  reportDiagnostic : σ → Diagnostic → σ := fun state d => report state d.line d.message

/-! ## Collections -/

/-- Diagnostics in the order in which they were reported. -/
structure Collection where
  entries : Array Diagnostic
deriving DecidableEq

namespace Collection

def empty : Collection := ⟨#[]⟩

def add (c : Collection) (d : Diagnostic) : Collection := ⟨c.entries.push d⟩

def toList (c : Collection) : List Diagnostic := c.entries.toList

@[simp] theorem toList_empty : empty.toList = [] := rfl

@[simp] theorem toList_add (c : Collection) (d : Diagnostic) :
    (c.add d).toList = c.toList ++ [d] := by simp [add, toList]

def size (c : Collection) : Nat := c.entries.size

def isEmpty (c : Collection) : Bool := c.entries.isEmpty

def last? (c : Collection) : Option Diagnostic := c.entries.back?

def hasErrors (c : Collection) : Bool := c.entries.any (·.isError)

theorem hasErrors_iff_ne_nil (c : Collection) : c.hasErrors = true ↔ c.toList ≠ [] := by
  have h (d : Diagnostic) : d.isError = true := by
    obtain ⟨_, _, _, _, category⟩ := d
    cases category
    rfl
  simp only [hasErrors, ← Array.any_toList, h, toList]
  cases c.entries.toList <;> simp

/-- A collection takes messages as plain diagnostics and keeps diagnostics as they are. -/
def sink : Sink Collection where
  report c line message := c.add (.plain line message)
  reportDiagnostic := add

end Collection

/-! ## Lines and messages -/

abbrev Transcript := Array (Nat × String)

def Transcript.sink : Sink Transcript where
  report t line message := t.push (line, message)

end LoxLexer
