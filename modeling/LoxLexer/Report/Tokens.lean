import LoxLexer.Json.Printer
import LoxLexer.Report.Record

/-!
# Token reports

The tokens of a scan as text, a line each, or as one JSON document with the diagnostics.
-/

namespace LoxLexer

inductive Format
  | text
  | json
deriving DecidableEq

def Format.ofName? : String → Option Format
  | "text" => some .text
  | "json" => some .json
  | _ => none

namespace Scan

def tokenLines (s : Scan) : String := .join (s.tokens.map fun t => t.display ++ "\n")

/-- The document names what was scanned, and places each token by the lines of the source. -/
def document (s : Scan) (name source : String) : Except Fault Json := do
  let map := LineMap.ofText source
  let tokens ← s.tokens.mapM fun t => do
    let place ← map.place t.span.start
    return t.recordAt place.column
  return .object [("name", .string name), ("tokens", .list tokens),
    ("diagnostics", s.diagnostics.record)]

def tokenReport (s : Scan) (format : Format) (name source : String) : Except Fault String :=
  match format with
  | .text => return s.tokenLines
  | .json => return (← s.document name source).pretty ++ "\n"

end Scan

end LoxLexer
