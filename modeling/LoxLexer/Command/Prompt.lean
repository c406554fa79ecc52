import LoxLexer.Command.Script

/-!
# The prompt

Without scripts the command reads lines from standard input and scans each by itself. Diagnostics
never end the session; the end of the input does, and so does a line that is no text.
-/

namespace LoxLexer.Prompt

/-- The lines of the input, each with the line feed that ends it; only the last may lack it. -/
def splitLines (input : List UInt8) : List (List UInt8) :=
  input.foldr
    (fun byte lines => match lines with
      | [] => [[byte]]
      | line :: rest => if byte = 10 then [byte] :: line :: rest else (byte :: line) :: rest)
    []

/-- The text without the line feeds and carriage returns at its end. -/
def trimLineEnd (line : String) : String :=
  .ofList (line.toList.reverse.dropWhile fun c => c == '\n' || c == '\r').reverse

def name : String := "<stdin>"

def notUtf8 : Failure := .input "stream did not contain valid UTF-8"

/-- Prints the prompt, unless there is no room for it. -/
def invite (console : Console) : Option Failure × Console :=
  let (printed, fits) := console.print "> "
  (if fits then none else some Console.noSpace, printed)

def answer (setting : Setting) (console : Console) (line : List UInt8) :
    Except Fault (Option Failure × Console) :=
  match String.fromUTF8? ⟨line.toArray⟩ with
  | none => return (some notUtf8, console)
  | some text =>
    let script := Script.ofSource name (trimLineEnd text)
    (console.log setting script.scanEntries).report setting script

/-- At the end of the input the line of the prompt is ended. -/
def close (console : Console) : Option Failure × Console :=
  let (printed, fits) := console.print "\n"
  (if fits then none else some Console.noSpace, printed)

/-- A session over the lines that are left, up to the first failure. -/
def converse (setting : Setting) (console : Console) :
    List (List UInt8) → Except Fault (Option Failure × Console)
  | [] =>
    match invite console with
    | (none, invited) => return close invited
    | refused => return refused
  | line :: rest =>
    match invite console with
    | (none, invited) => do
      match ← answer setting invited line with
      | (none, answered) => converse setting answered rest
      | failed => return failed
    | refused => return refused

def session (setting : Setting) (input : ByteArray) (console : Console) :
    Except Fault (Status × Console) := do
  match ← converse setting console (splitLines input.toList) with
  | (none, ended) => return (.success, ended)
  | (some failure, ended) => return ended.fail setting failure

end LoxLexer.Prompt
