import LoxLexer.Command.Status

/-!
# Failures of the command

What keeps the command itself from doing its work, as opposed to what is wrong with a script.
-/

namespace LoxLexer

/-- A cause is told in the words of whoever refused. -/
inductive Failure
  | unreadable (script cause : String)
  | notUtf8 (script : String)
  | input (cause : String)
  | output (cause : String)
deriving DecidableEq

namespace Failure

def message : Failure → String
  | .unreadable script _ => "could not read '" ++ script ++ "'"
  | .notUtf8 script => "'" ++ script ++ "' is not valid UTF-8"
  | .input _ => "could not read from standard input"
  | .output _ => "could not write output"

def code : Failure → String
  | .unreadable _ _ => "lox::read"
  | .notUtf8 _ => "lox::encoding"
  | .input _ => "lox::stdin"
  | .output _ => "lox::output"

def help? : Failure → Option String
  | .unreadable _ _ => some "check that the script exists and is readable"
  | .notUtf8 _ => some "Lox scripts must be UTF-8 encoded"
  | .input _ => none
  | .output _ => none

def cause? : Failure → Option String
  | .unreadable _ cause => some cause
  | .notUtf8 _ => none
  | .input cause => some cause
  | .output cause => some cause

def status : Failure → Status
  | .unreadable _ _ => .noInput
  | .notUtf8 _ => .dataError
  | .input _ => .ioError
  | .output _ => .ioError

/-- The code, the message with its cause, and what may help. -/
def report (f : Failure) : String :=
  let cause := f.cause?.map ("  ╰─▶ " ++ ·)
  let help := f.help?.map ("  help: " ++ ·)
  .join <| ([f.code, "", "  × " ++ f.message] ++ cause.toList ++ help.toList ++ [""]).map (· ++ "\n")

end Failure

end LoxLexer
