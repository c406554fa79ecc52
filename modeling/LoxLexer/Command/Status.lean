/-!
# Exit statuses

How a run ended. Of two runs the greater number tells: failures of input and output stand above bad
input, and bad input above success.
-/

namespace LoxLexer

inductive Status
  | success
  | usage
  | dataError
  | noInput
  | ioError
deriving DecidableEq

namespace Status

def code : Status → Nat
  | .success => 0
  | .usage => 64
  | .dataError => 65
  | .noInput => 66
  | .ioError => 74

def name : Status → String
  | .success => "Success"
  | .usage => "Usage"
  | .dataError => "DataError"
  | .noInput => "NoInput"
  | .ioError => "IoError"

def all : List Status := [.success, .usage, .dataError, .noInput, .ioError]

def ofName? (text : String) : Option Status := all.find? (·.name == text)

def combine (a b : Status) : Status := if a.code ≤ b.code then b else a

theorem code_combine (a b : Status) : (a.combine b).code = max a.code b.code := by
  unfold combine
  split <;> omega

end Status

end LoxLexer
