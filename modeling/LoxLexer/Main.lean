import LoxLexer.Command.FileTree
import LoxLexer.Command.Run

/-!
# The command

Reads what a run needs and writes what comes of it. The prompt is answered line by line.
-/

namespace LoxLexer.Command

def causeOf : IO.Error → String
  | .noFileOrDirectory _ _ _ => Refusal.missing.message
  | .inappropriateType _ 21 _ => Refusal.isDirectory.message
  | .inappropriateType _ _ _ => Refusal.notDirectory.message
  | e => toString e

def refusedOutput : IO.Error → Failure
  | .resourceExhausted _ 28 _ => Console.noSpace
  | e => .output (toString e)

def readScript (path : String) : IO (String × Except String ByteArray) := do
  try return (path, .ok (← IO.FS.readBinFile path))
  catch e => return (path, .error (causeOf e))

def emit (output : ByteArray) (errors : String) : IO Unit := do
  let stdout ← IO.getStdout
  stdout.write output
  stdout.flush
  (← IO.getStderr).putStr errors

def check {α : Type} : Except Fault α → IO α
  | .ok a => return a
  | .error fault => throw (.userError fault.message)

/-- A line of the input with its line feed; at the end of the input it is empty. -/
partial def readLine (input : IO.FS.Stream) (line : Array UInt8) : IO (Array UInt8) := do
  match (← input.read 1).toList with
  | [] => return line
  | byte :: _ => if byte = 10 then return line.push byte else readLine input (line.push byte)

/-- Writes what one step of a session put on its console, and leaves the failure, if it has one. -/
def perform (step : Except Fault (Option Failure × Console)) : IO (Option Failure) := do
  let (failure, console) ← check step
  emit console.output.taken console.errors
  return failure

partial def converse (setting : Setting) (input : IO.FS.Stream) : IO (Option Failure) := do
  let blank := Console.withRoom none
  if let some failure ← perform (.ok (Prompt.invite blank)) then return some failure
  let line ← readLine input #[]
  if line.isEmpty then perform (.ok (Prompt.close blank))
  else if let some failure ← perform (Prompt.answer setting blank line.toList) then
    return some failure
  else converse setting input

def conclude (setting : Setting) (failure : Failure) : IO UInt32 := do
  let (status, console) := (Console.withRoom none).fail setting failure
  (← IO.getStderr).putStr console.errors
  return .ofNat status.code

def settle (args : List String) (directive : Option String)
    (contents : List (String × Except String ByteArray)) : IO UInt32 := do
  let read (path : String) := (contents.lookup path).getD (.error Refusal.missing.message)
  let outcome ← check (run args ⟨read, .empty, directive, none⟩)
  emit outcome.output outcome.errors
  return .ofNat outcome.status.code

def execute (args : List String) : IO UInt32 := do
  let directive ← IO.getEnv "RUST_LOG"
  match Arguments.read args with
  | .run options =>
    let setting := options.setting directive
    try
      if options.scripts.isEmpty then
        match ← converse setting (← IO.getStdin) with
        | some failure => conclude setting failure
        | none => return .ofNat Status.success.code
      else settle args directive (← options.scripts.mapM readScript)
    catch e => conclude setting (refusedOutput e)
  | _ => try settle args directive [] catch _ => return .ofNat Status.success.code

end LoxLexer.Command

def main (args : List String) : IO UInt32 := LoxLexer.Command.execute args
