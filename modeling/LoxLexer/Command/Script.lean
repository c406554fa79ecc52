import LoxLexer.Command.Console
import LoxLexer.Command.Failure
import LoxLexer.Command.Log
import LoxLexer.Report.Diagnostics
import LoxLexer.Report.Tokens

/-!
# Scripts

A script is read and scanned, and then its tokens are printed and its diagnostics told. Many scripts
are all read first and then reported in order; one that fails does not stop the others.
-/

namespace LoxLexer

/-- How reports are written, and which log lines are shown. -/
structure Setting where
  format : Format
  style : Style
  log : Option Log.Filter
deriving DecidableEq

structure Script where
  name : String
  source : String
  scan : Scan
deriving DecidableEq

namespace Script

def ofSource (name source : String) : Script := ⟨name, source, LoxLexer.scan source⟩

def load (path : String) (content : Except String ByteArray) : Except Failure Script :=
  match content with
  | .error cause => .error (.unreadable path cause)
  | .ok bytes =>
    match String.fromUTF8? bytes with
    | some source => .ok (.ofSource path source)
    | none => .error (.notUtf8 path)

def scanEntries (s : Script) : List Log.Entry := Log.Entry.ofScan s.source s.scan

def entries : Except Failure Script → List Log.Entry
  | .ok s => .opened s.name s.source.utf8ByteSize :: s.scanEntries
  | .error _ => []

def status (s : Script) : Status := if s.scan.hasErrors then .dataError else .success

end Script

namespace Console

def log (c : Console) (setting : Setting) (entries : List Log.Entry) : Console :=
  c.tell (Log.shown setting.log entries)

def fail (c : Console) (setting : Setting) (f : Failure) : Status × Console :=
  (f.status, (c.log setting [.failed f.status]).tell f.report)

/-- What is said of output that was not taken. -/
def noSpace : Failure := .output "No space left on device (os error 28)"

/-- The tokens are printed. If all of them are taken the diagnostics are told too, else there is a
failure. -/
def report (c : Console) (setting : Setting) (s : Script) :
    Except Fault (Option Failure × Console) := do
  let text ← s.scan.tokenReport setting.format s.name s.source
  let (printed, fits) := c.print text
  if fits then
    return (none, printed.tell (s.scan.diagnosticReport setting.style s.name s.source))
  else return (some noSpace, printed)

def conclude (c : Console) (setting : Setting) :
    Except Failure Script → Except Fault (Status × Console)
  | .error failure => return c.fail setting failure
  | .ok s => do
    match ← c.report setting s with
    | (some failure, reported) => return reported.fail setting failure
    | (none, reported) => return (s.status, reported)

/-- The outcome of many scripts is the greatest status of any. -/
def concludeAll (setting : Setting) (status : Status) (c : Console) :
    List (Except Failure Script) → Except Fault (Status × Console)
  | [] => return (status, c)
  | loaded :: rest => do
    let (next, concluded) ← c.conclude setting loaded
    concludeAll setting (status.combine next) concluded rest

end Console

/-- Scans the scripts at the paths, given what reading a path gives. -/
def scanScripts (setting : Setting) (read : String → Except String ByteArray)
    (paths : List String) (console : Console) : Except Fault (Status × Console) :=
  let loaded := paths.map fun path => Script.load path (read path)
  Console.concludeAll setting .success (console.log setting (loaded.flatMap Script.entries)) loaded

end LoxLexer
