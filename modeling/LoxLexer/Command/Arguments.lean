import LoxLexer.Report.Diagnostics
import LoxLexer.Report.Tokens

/-!
# Arguments

Arguments are read from left to right, and the first of them that asks for help or for the version
or cannot be understood decides.
-/

namespace LoxLexer

/-- What a run is to do. -/
structure Options where
  scripts : List String
  format : Format
  style : Style
  verbose : Bool
deriving DecidableEq

inductive Invocation
  | run (options : Options)
  | shortHelp
  | longHelp
  | version
  | refused
deriving DecidableEq

namespace Arguments

/-- What the arguments so far have said. -/
structure Draft where
  scripts : List String
  format : Option Format
  pretty : Bool
  verbose : Bool
deriving DecidableEq

namespace Draft

def blank : Draft := ⟨[], none, false, false⟩

/-- The format can be said once. -/
def setFormat (d : Draft) (name : String) : Except Invocation Draft :=
  match d.format, Format.ofName? name with
  | none, some format => .ok { d with format := some format }
  | _, _ => .error .refused

def addScript (d : Draft) (name : String) : Except Invocation Draft :=
  if name = "" then .error .refused else .ok { d with scripts := d.scripts ++ [name] }

def setPretty (d : Draft) : Except Invocation Draft :=
  if d.pretty then .error .refused else .ok { d with pretty := true }

def setVerbose (d : Draft) : Except Invocation Draft :=
  if d.verbose then .error .refused else .ok { d with verbose := true }

def options (d : Draft) : Options :=
  ⟨d.scripts, d.format.getD .text, if d.pretty then .pretty else .plain, d.verbose⟩

/-- Letters after one dash, each a flag. -/
def letters (d : Draft) : List Char → Except Invocation Draft
  | [] => .ok d
  | 'v' :: more => d.setVerbose >>= fun d => d.letters more
  | 'h' :: _ => .error .shortHelp
  | 'V' :: _ => .error .version
  | _ => .error .refused

def word (d : Draft) (name : String) : Except Invocation Draft :=
  match name with
  | "pretty" => d.setPretty
  | "verbose" => d.setVerbose
  | "help" => .error .longHelp
  | "version" => .error .version
  | _ =>
    let key := "format=".toList
    if key.isPrefixOf name.toList then d.setFormat (.ofList (name.toList.drop key.length))
    else .error .refused

end Draft

/-- What stands after two dashes alone is a script, and so is a dash alone. -/
def readFrom (d : Draft) : List String → Except Invocation Draft
  | [] => .ok d
  | "--" :: rest => rest.foldlM Draft.addScript d
  | ["--format"] => .error .refused
  | "--format" :: value :: rest => d.setFormat value >>= fun d => readFrom d rest
  | arg :: rest =>
    let next := match arg.toList with
      | '-' :: '-' :: name => d.word (.ofList name)
      | '-' :: c :: more => d.letters (c :: more)
      | _ => d.addScript arg
    next >>= fun d => readFrom d rest

def read (args : List String) : Invocation :=
  match readFrom .blank args with
  | .ok d => .run d.options
  | .error decided => decided

end Arguments

end LoxLexer
