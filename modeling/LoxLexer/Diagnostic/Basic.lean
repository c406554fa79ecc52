import LoxLexer.Text.Span

/-!
# Diagnostics

A diagnostic tells what is wrong on a line, with a code and, if it is known, the span it is about.
Its message is made from a template, which holds placeholders, numbers in braces. They are filled
one number after the other, each everywhere in the text so far, so a placeholder that an argument
brings in is filled by a later one.
-/

namespace LoxLexer

/-! ## Templates -/

inductive Category
  | error
deriving DecidableEq

def Category.name : Category → String
  | .error => "Error"

/-- A kind of message: its code, its category and its text with placeholders. -/
structure Template where
  code : Nat
  category : Category
  text : String

namespace Template

/-- The text with each occurrence of `old`, from left to right, replaced by `new`. -/
def replaceAll (old new : List Char) : List Char → List Char
  | [] => []
  | c :: cs =>
    if old ≠ [] ∧ old.isPrefixOf (c :: cs) then
      new ++ replaceAll old new (cs.drop (old.length - 1))
    else c :: replaceAll old new cs
termination_by text => text.length
decreasing_by
  · simp only [List.length_drop, List.length_cons]; omega
  · simp

def placeholder (i : Nat) : List Char := '{' :: Nat.toDigits 10 i ++ ['}']

/-- The template's text with the placeholder of each argument filled in, in order. -/
def fill (text : String) (args : List String) : String :=
  .ofList <| args.zipIdx.foldl (fun soFar (arg, i) => replaceAll (placeholder i) arg.toList soFar)
    text.toList

end Template

/-! ## Diagnostics -/

structure Diagnostic where
  line : Nat
  span : Option Span
  message : String
  code : Nat
  category : Category
deriving DecidableEq

namespace Diagnostic

def ofTemplate (line : Nat) (template : Template) (args : List String) : Diagnostic :=
  ⟨line, none, Template.fill template.text args, template.code, template.category⟩

/-- A message that comes with its line alone has the code 0. -/
def plain (line : Nat) (message : String) : Diagnostic := ⟨line, none, message, 0, .error⟩

def withSpan (d : Diagnostic) (span : Span) : Diagnostic := { d with span := some span }

def isError (d : Diagnostic) : Bool := d.category == .error

/-- The letters LX and the code, with zeros in front up to four digits. -/
def codeText (d : Diagnostic) : String :=
  let digits := Nat.toDigits 10 d.code
  .ofList ('L' :: 'X' :: (List.replicate (4 - digits.length) '0' ++ digits))

def display (d : Diagnostic) : String :=
  "[line " ++ toString d.line ++ "] " ++ d.category.name ++ ": " ++ d.message

end Diagnostic

end LoxLexer
