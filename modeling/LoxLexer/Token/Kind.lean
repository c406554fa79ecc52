/-!
# Kinds of tokens

The kinds have a fixed order, and each is known by its number in it. The reserved words are a kind
for themselves; in that order *fun* stands before *for*, in the table of spellings after it.
-/

namespace LoxLexer

/-! ## Reserved words -/

inductive Keyword
  | andWord
  | classWord
  | elseWord
  | falseWord
  | funWord
  | forWord
  | ifWord
  | nilWord
  | orWord
  | printWord
  | returnWord
  | superWord
  | thisWord
  | trueWord
  | varWord
  | whileWord
deriving DecidableEq

namespace Keyword

def spelling : Keyword → String
  | .andWord => "and"
  | .classWord => "class"
  | .elseWord => "else"
  | .falseWord => "false"
  | .funWord => "fun"
  | .forWord => "for"
  | .ifWord => "if"
  | .nilWord => "nil"
  | .orWord => "or"
  | .printWord => "print"
  | .returnWord => "return"
  | .superWord => "super"
  | .thisWord => "this"
  | .trueWord => "true"
  | .varWord => "var"
  | .whileWord => "while"

def name : Keyword → String
  | .andWord => "And"
  | .classWord => "Class"
  | .elseWord => "Else"
  | .falseWord => "False"
  | .funWord => "Fun"
  | .forWord => "For"
  | .ifWord => "If"
  | .nilWord => "Nil"
  | .orWord => "Or"
  | .printWord => "Print"
  | .returnWord => "Return"
  | .superWord => "Super"
  | .thisWord => "This"
  | .trueWord => "True"
  | .varWord => "Var"
  | .whileWord => "While"

def table : List Keyword :=
  [.andWord, .classWord, .elseWord, .falseWord, .forWord, .funWord, .ifWord, .nilWord, .orWord,
    .printWord, .returnWord, .superWord, .thisWord, .trueWord, .varWord, .whileWord]

def ofSpelling? (text : String) : Option Keyword := table.find? (·.spelling == text)

theorem mem_table (k : Keyword) : k ∈ table := by cases k <;> decide

end Keyword

/-! ## Kinds -/

inductive Kind
  | leftParen
  | rightParen
  | leftBrace
  | rightBrace
  | comma
  | dot
  | minus
  | plus
  | semicolon
  | slash
  | star
  | bang
  | bangEqual
  | equal
  | equalEqual
  | greater
  | greaterEqual
  | less
  | lessEqual
  | identifier
  | string
  | number
  | keyword (word : Keyword)
  | eof
deriving DecidableEq

namespace Kind

def name : Kind → String
  | .leftParen => "LeftParen"
  | .rightParen => "RightParen"
  | .leftBrace => "LeftBrace"
  | .rightBrace => "RightBrace"
  | .comma => "Comma"
  | .dot => "Dot"
  | .minus => "Minus"
  | .plus => "Plus"
  | .semicolon => "Semicolon"
  | .slash => "Slash"
  | .star => "Star"
  | .bang => "Bang"
  | .bangEqual => "BangEqual"
  | .equal => "Equal"
  | .equalEqual => "EqualEqual"
  | .greater => "Greater"
  | .greaterEqual => "GreaterEqual"
  | .less => "Less"
  | .lessEqual => "LessEqual"
  | .identifier => "Identifier"
  | .string => "String"
  | .number => "Number"
  | .keyword word => word.name
  | .eof => "Eof"

def all : List Kind :=
  [.leftParen, .rightParen, .leftBrace, .rightBrace, .comma, .dot, .minus, .plus, .semicolon,
    .slash, .star, .bang, .bangEqual, .equal, .equalEqual, .greater, .greaterEqual, .less,
    .lessEqual, .identifier, .string, .number, .keyword .andWord, .keyword .classWord,
    .keyword .elseWord, .keyword .falseWord, .keyword .funWord, .keyword .forWord,
    .keyword .ifWord, .keyword .nilWord, .keyword .orWord, .keyword .printWord,
    .keyword .returnWord, .keyword .superWord, .keyword .thisWord, .keyword .trueWord,
    .keyword .varWord, .keyword .whileWord, .eof]

theorem mem_all (k : Kind) : k ∈ all := by
  cases k with
  | keyword word => cases word <;> decide
  | _ => decide

def index (k : Kind) : Nat := all.idxOf k

theorem getElem?_index (k : Kind) : all[k.index]? = some k := by
  cases k with
  | keyword word => cases word <;> decide
  | _ => decide

theorem index_injective {a b : Kind} (h : a.index = b.index) : a = b :=
  Option.some.inj (by rw [← getElem?_index a, h, getElem?_index b])

def ofName? (text : String) : Option Kind := all.find? (·.name == text)

def isKeyword : Kind → Bool
  | .keyword _ => true
  | _ => false

def spelling? : Kind → Option String
  | .keyword word => some word.spelling
  | _ => none

instance : Ord Kind := ⟨fun a b => compare a.index b.index⟩

/-- Kinds sorted by their order; equal kinds cannot be told apart. -/
def sort (kinds : List Kind) : List Kind := kinds.mergeSort fun a b => a.index ≤ b.index

/-- The kind of a lone punctuation mark that begins nothing longer. -/
def ofMark? : Char → Option Kind
  | '(' => some .leftParen
  | ')' => some .rightParen
  | '{' => some .leftBrace
  | '}' => some .rightBrace
  | ',' => some .comma
  | '.' => some .dot
  | '-' => some .minus
  | '+' => some .plus
  | ';' => some .semicolon
  | '*' => some .star
  | _ => none

def ofWord (text : String) : Kind :=
  match Keyword.ofSpelling? text with
  | some word => .keyword word
  | none => .identifier

end Kind

end LoxLexer
