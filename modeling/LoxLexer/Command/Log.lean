import LoxLexer.Command.Status
import LoxLexer.Scan.Basic

/-!
# The log

What a run notes down while it works, and which of it is shown. A filter shows the lines of one
target up to a level; a target stands for every target that begins with it.
-/

namespace LoxLexer.Log

/-! ## Levels and filters -/

inductive Level
  | error
  | warn
  | info
  | debug
  | trace
deriving DecidableEq

namespace Level

def name : Level → String
  | .error => "ERROR"
  | .warn => "WARN"
  | .info => "INFO"
  | .debug => "DEBUG"
  | .trace => "TRACE"

/-- The more detail a level tells, the greater is its rank. -/
def rank : Level → Nat
  | .error => 1
  | .warn => 2
  | .info => 3
  | .debug => 4
  | .trace => 5

end Level

/-- Lines of the target are shown up to the limit, and none if there is no limit. -/
structure Filter where
  target : String
  limit : Option Level
deriving DecidableEq

namespace Filter

/-- A limit by its name in small or capital letters; `off` is the limit that shows nothing. -/
def limitOfName? (text : String) : Option (Option Level) :=
  match text.toLower with
  | "off" => some none
  | "error" => some (some .error)
  | "warn" => some (some .warn)
  | "info" => some (some .info)
  | "debug" => some (some .debug)
  | "trace" => some (some .trace)
  | _ => none

def standard : Filter := ⟨"", some .error⟩

/-- A level for every target, a target with its level after an equals sign, or a target alone, which
shows all of it. -/
def ofDirective (directive : String) : Filter :=
  let chars := directive.toList
  let target := chars.takeWhile (· != '=')
  match chars.dropWhile (· != '=') with
  | [] =>
    if chars = [] then standard
    else match limitOfName? directive with
      | some limit => ⟨"", limit⟩
      | none => ⟨directive, some .trace⟩
  | _ :: level =>
    match limitOfName? (.ofList level) with
    | some limit => ⟨.ofList target, limit⟩
    | none => standard

def shows (f : Filter) (level : Level) (target : String) : Bool :=
  f.target.toList.isPrefixOf target.toList && f.limit.any (level.rank ≤ ·.rank)

end Filter

/-! ## Entries -/

/-- What is noted down. A scan is known by the bytes of its text. -/
inductive Entry
  | opened (script : String) (bytes : Nat)
  | lexicalError (bytes : Nat) (error : LexicalError)
  | scanned (bytes tokens lines : Nat)
  | failed (status : Status)

namespace Entry

def level : Entry → Level
  | .opened _ _ => .info
  | .lexicalError _ _ => .trace
  | .scanned _ _ _ => .debug
  | .failed _ => .debug

def target : Entry → String
  | .opened _ _ => "lox"
  | .lexicalError _ _ => "lox_scanner::scanner"
  | .scanned _ _ _ => "lox_scanner::scanner"
  | .failed _ => "lox"

def context : Entry → String
  | .lexicalError bytes _ => "scan_tokens\x7blen=" ++ toString bytes ++ "\x7d: "
  | .scanned bytes _ _ => "scan_tokens\x7blen=" ++ toString bytes ++ "\x7d: "
  | .opened _ _ => ""
  | .failed _ => ""

def text : Entry → String
  | .opened script bytes => "scanning script path=" ++ script ++ " bytes=" ++ toString bytes
  | .lexicalError _ error =>
    "lexical error line=" ++ toString error.line ++ " error=" ++ error.message
  | .scanned _ tokens lines =>
    "scan finished tokens=" ++ toString tokens ++ " lines=" ++ toString lines
  | .failed status => "driver error code=" ++ status.name

/-- The level is set to the right in five columns. -/
def line (e : Entry) : String :=
  let name := e.level.name
  let pad := String.ofList (List.replicate (6 - name.length) ' ')
  pad ++ name ++ " " ++ e.context ++ e.target ++ ": " ++ e.text ++ "\n"

/-- What a scan notes down: its errors as they are found, and then that it is finished. -/
def ofScan (source : String) (s : Scan) : List Entry :=
  let bytes := source.utf8ByteSize
  let lines := (Location.start.after source.toList).line
  (lexicalErrors source).map (.lexicalError bytes) ++ [.scanned bytes s.tokens.length lines]

end Entry

/-- The lines that are shown; without a filter there are none. -/
def shown (filter : Option Filter) (entries : List Entry) : String :=
  match filter with
  | none => ""
  | some f => .join <| (entries.filter fun e => f.shows e.level e.target).map Entry.line

end LoxLexer.Log
