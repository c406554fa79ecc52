import LoxLexer.Command.Arguments
import LoxLexer.Command.Help
import LoxLexer.Command.Prompt

/-!
# Runs of the command

The outcome of a run follows from its arguments and its surroundings.
-/

namespace LoxLexer

/-- What a run finds around it: files, standard input, the log directive if there is one, and how
many bytes standard output takes if there is a limit. -/
structure Surroundings where
  read : String → Except String ByteArray
  input : ByteArray
  directive : Option String
  room : Option Nat

structure Outcome where
  status : Status
  output : ByteArray
  errors : String

namespace Outcome

def of (status : Status) (console : Console) : Outcome :=
  ⟨status, console.output.taken, console.errors⟩

end Outcome

/-- A directive decides what is logged; without one, being verbose shows all but traces. -/
def Options.logFilter (o : Options) (directive : Option String) : Option Log.Filter :=
  match directive with
  | some text => some (.ofDirective text)
  | none => if o.verbose then some ⟨"", some .debug⟩ else none

def Options.setting (o : Options) (directive : Option String) : Setting :=
  ⟨o.format, o.style, o.logFilter directive⟩

def inform (text : String) (console : Console) : Outcome := .of .success (console.print text).1

def run (args : List String) (around : Surroundings) : Except Fault Outcome := do
  let console := Console.withRoom around.room
  match Arguments.read args with
  | .shortHelp => return inform Help.short console
  | .longHelp => return inform Help.long console
  | .version => return inform Help.version console
  | .refused => return .of .usage (console.tell Help.usage)
  | .run options =>
    let setting := options.setting around.directive
    let (status, ended) ←
      if options.scripts.isEmpty then Prompt.session setting around.input console
      else scanScripts setting around.read options.scripts console
    return .of status ended

end LoxLexer
