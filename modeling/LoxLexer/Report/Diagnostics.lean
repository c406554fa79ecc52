import LoxLexer.Scan.Basic
import LoxLexer.Text.LineMap

/-!
# Diagnostic reports

The diagnostics of a scan in order, a line each or drawn into the source. A snippet has the lines
that the span covers and their neighbours, with a mark under the span or, if it covers several
lines, along them. Widths count characters, with tabs expanded.
-/

namespace LoxLexer

/-! ## Snippets -/

/-- What is written at a span of the source. -/
structure Label where
  text : String
  span : Span

def Diagnostic.label? (d : Diagnostic) : Option Label :=
  d.span.map fun span => ⟨"line " ++ toString d.line, span⟩

namespace Snippet

/-! ### Lines of the source -/

/-- A character goes before the first line, and a line feed begins a new one. -/
def addFront (c : Char) : List (List Char) → List (List Char)
  | [] => [[c]]
  | line :: lines => if c = '\n' then [] :: line :: lines else (c :: line) :: lines

/-- The lines of a text; a line feed at the end begins none. -/
def sourceLines (text : List Char) : List (List Char) :=
  let lines := text.foldr addFront [[]]
  if lines.getLast? = some [] then lines.dropLast else lines

def takeBytes : Nat → List Char → List Char
  | _, [] => []
  | bytes, c :: cs => if c.utf8Size ≤ bytes then c :: takeBytes (bytes - c.utf8Size) cs else []

/-- Tabs go to the next multiple of four. -/
def expandTabs (column : Nat) : List Char → List Char
  | [] => []
  | c :: cs =>
    if c = '\t' then
      let blanks := 4 - column % 4
      List.replicate blanks ' ' ++ expandTabs (column + blanks) cs
    else c :: expandTabs (column + 1) cs

def width (text : List Char) : Nat := (expandTabs 0 text).length

def blanks (n : Nat) : String := .ofList (List.replicate n ' ')

def rule (n : Nat) : String := .ofList (List.replicate n '─')

/-! ### Drawing -/

/-- The span in the lines of the source: its first and last line, and where in the first line it
begins and ends, in bytes. -/
structure Extent where
  first : Nat
  last : Nat
  left : Nat
  right : Nat

/-- The last line is that of the last byte. -/
def Extent.of (map : LineMap) (span : Span) : Extent :=
  let lineStart := (map.lineStart span.start).toNat
  let stop := span.start.toNat + span.length.toNat
  ⟨map.lineOf span.start, map.lineOf (.ofOffset (stop - min 1 span.length.toNat)),
    span.start.toNat - lineStart, stop - lineStart⟩

/-- The mark under a span of one line. It is at least one character wide, and covers one more
character if the span goes beyond the line's text. -/
def underline (extent : Extent) (line : List Char) (label : String) : List String :=
  let a := width (takeBytes extent.left line)
  let beyond := if byteSize line < extent.right then 1 else 0
  let b := max (width (takeBytes extent.right line) + beyond) (a + 1)
  let middle := (a + b) / 2
  ["· " ++ blanks a ++ rule (middle - a) ++ "┬" ++ rule (b - middle - 1),
    "· " ++ blanks middle ++ "╰── " ++ label]

/-- What stands between the number of a line and its text. -/
def gutter (extent : Extent) (number : Nat) : String :=
  if extent.first = extent.last then ""
  else if number = extent.first then "╭─▶ "
  else if number = extent.last then "├─▶ "
  else if extent.first < number ∧ number < extent.last then "│   "
  else "    "

/-- The marks that follow a line. -/
def marks (extent : Extent) (number : Nat) (line : List Char) (label : String) : List String :=
  if number ≠ extent.last then []
  else if extent.first = extent.last then underline extent line label
  else ["· ╰──── " ++ label]

def frame (name source : String) (label : Label) : List String :=
  let map := LineMap.ofText source
  let extent := Extent.of map label.span
  let numbered := (sourceLines source.toList).zipIdx 1
  let shown := numbered.filter fun (_, n) => extent.first ≤ n + 1 ∧ n ≤ extent.last + 1
  let digits := shown.foldl (fun w (_, n) => max w (Nat.toDigits 10 n).length) 0
  let pad := blanks (digits + 2)
  let body := shown.flatMap fun (line, n) =>
    let number := toString n
    (" " ++ blanks (digits - number.length) ++ number ++ " │ " ++ gutter extent n ++
        .ofList (expandTabs 0 line)) ::
      (marks extent n line label.text).map (pad ++ ·)
  let title := name ++ ":" ++ toString extent.first ++ ":" ++ toString (extent.left + 1)
  (pad ++ "╭─[" ++ title ++ "]") :: body ++ [pad ++ "╰────"]

end Snippet

def Diagnostic.snippet (d : Diagnostic) (name source : String) : String :=
  let frame := match d.label? with
    | some label => Snippet.frame name source label
    | none => []
  .join <| ([d.codeText, "", "  × " ++ d.message] ++ frame ++ [""]).map (· ++ "\n")

/-! ## Reports -/

inductive Style
  | plain
  | pretty
deriving DecidableEq

def Diagnostic.report (d : Diagnostic) (style : Style) (name source : String) : String :=
  match style with
  | .plain => d.display ++ "\n"
  | .pretty => d.snippet name source

def Scan.diagnosticReport (s : Scan) (style : Style) (name source : String) : String :=
  .join (s.diagnostics.toList.map fun d => d.report style name source)

end LoxLexer
