import LoxLexer.Number.Nearest
import LoxLexer.Scan.Piece

/-!
# Cutting a text into pieces

The first piece is found by looking at the characters in front. Cutting it off loses nothing
(`Cut.first_append`), and the pieces of a text are found by cutting off one after the other.
-/

namespace LoxLexer

/-! ## The first piece -/

structure Cut where
  piece : Piece
  rest : List Char

namespace Cut

/-- A mark alone, or with an equals sign after it. -/
def operator (single double : Kind) (c : Char) : List Char → Cut
  | '=' :: cs => ⟨.token double [c, '='] .absent, cs⟩
  | cs => ⟨.token single [c] .absent, cs⟩

/-- Two slashes begin a comment, which ends before the line feed. -/
def slash : List Char → Cut
  | '/' :: cs => ⟨.trivia ('/' :: '/' :: cs.takeWhile (· != '\n')), cs.dropWhile (· != '\n')⟩
  | cs => ⟨.token .slash ['/'] .absent, cs⟩

/-- A string ends at the next quote, whatever stands before it. -/
def quoted (cs : List Char) : Cut :=
  let body := cs.takeWhile (· != '"')
  match cs.dropWhile (· != '"') with
  | [] => ⟨.unclosed ('"' :: body), []⟩
  | quote :: rest =>
    ⟨.token .string ('"' :: body ++ [quote]) (.text (.ofList body)), rest⟩

def ofNumeral (n : Numeral) (rest : List Char) : Cut :=
  ⟨.token .number n.text (.number n.value), rest⟩

/-- The digits in front, and those after a point if there is a digit after the point. -/
def number (c : Char) (cs : List Char) : Cut :=
  let whole := c :: cs.takeWhile Char.isDigit
  match cs.dropWhile Char.isDigit with
  | '.' :: d :: rest =>
    if d.isDigit then
      ofNumeral ⟨whole, d :: rest.takeWhile Char.isDigit⟩ (rest.dropWhile Char.isDigit)
    else ofNumeral ⟨whole, []⟩ ('.' :: d :: rest)
  | rest => ofNumeral ⟨whole, []⟩ rest

def word (c : Char) (cs : List Char) : Cut :=
  let chars := c :: cs.takeWhile isWordPart
  ⟨.token (.ofWord (.ofList chars)) chars .absent, cs.dropWhile isWordPart⟩

def first (c : Char) (cs : List Char) : Cut :=
  match c with
  | '!' => operator .bang .bangEqual c cs
  | '=' => operator .equal .equalEqual c cs
  | '<' => operator .less .lessEqual c cs
  | '>' => operator .greater .greaterEqual c cs
  | '/' => slash cs
  | '"' => quoted cs
  | _ =>
    match Kind.ofMark? c with
    | some kind => ⟨.token kind [c] .absent, cs⟩
    | none =>
      if isBlank c then ⟨.trivia [c], cs⟩
      else if c.isDigit then number c cs
      else if isWordStart c then word c cs
      else ⟨.stray c, cs⟩

/-! ## Nothing is lost -/

theorem operator_append (single double : Kind) (c : Char) (cs : List Char) :
    (operator single double c cs).piece.text ++ (operator single double c cs).rest = c :: cs := by
  unfold operator
  split <;> rfl

theorem slash_append (cs : List Char) : (slash cs).piece.text ++ (slash cs).rest = '/' :: cs := by
  unfold slash
  split
  · simp [Piece.text, List.takeWhile_append_dropWhile]
  · rfl

theorem quoted_append (cs : List Char) :
    (quoted cs).piece.text ++ (quoted cs).rest = '"' :: cs := by
  have h := List.takeWhile_append_dropWhile (p := (· != '"')) (l := cs)
  unfold quoted
  split <;> rename_i heq <;> rw [heq] at h <;> simp_all [Piece.text]

theorem number_append (c : Char) (cs : List Char) :
    (number c cs).piece.text ++ (number c cs).rest = c :: cs := by
  have h := List.takeWhile_append_dropWhile (p := Char.isDigit) (l := cs)
  unfold number
  split
  · rename_i d rest heq
    rw [heq] at h
    split
    · simp [ofNumeral, Piece.text, Numeral.text, List.takeWhile_append_dropWhile, h]
    · simp [ofNumeral, Piece.text, Numeral.text, h]
  · simp [ofNumeral, Piece.text, Numeral.text, h]

theorem word_append (c : Char) (cs : List Char) :
    (word c cs).piece.text ++ (word c cs).rest = c :: cs := by
  simp [word, Piece.text, List.takeWhile_append_dropWhile]

theorem first_append (c : Char) (cs : List Char) :
    (first c cs).piece.text ++ (first c cs).rest = c :: cs := by
  unfold first
  split
  case h_5 => exact slash_append cs
  case h_6 => exact quoted_append cs
  case h_7 =>
    split
    · rfl
    · split
      · rfl
      · split
        · exact number_append c cs
        · split
          · exact word_append c cs
          · rfl
  all_goals exact operator_append _ _ _ cs

theorem text_first_ne_nil (c : Char) (cs : List Char) : (first c cs).piece.text ≠ [] := by
  unfold first
  split
  case h_5 => unfold slash; split <;> simp [Piece.text]
  case h_6 => unfold quoted; split <;> simp [Piece.text]
  case h_7 =>
    split
    · simp [Piece.text]
    · split
      · simp [Piece.text]
      · split
        · unfold number
          split
          · split <;> simp [ofNumeral, Piece.text, Numeral.text]
          · simp [ofNumeral, Piece.text, Numeral.text]
        · split <;> simp [word, Piece.text]
  all_goals unfold operator; split <;> simp [Piece.text]

theorem length_rest_first_le (c : Char) (cs : List Char) :
    (first c cs).rest.length ≤ cs.length := by
  have happ := congrArg List.length (first_append c cs)
  have hpos := List.length_pos_iff.2 (text_first_ne_nil c cs)
  simp only [List.length_append, List.length_cons] at happ
  omega

end Cut

/-! ## All pieces -/

/-- The pieces of the text after those already found, the last of which comes first. -/
def piecesAfter (found : List Piece) : List Char → List Piece
  | [] => found.reverse
  | c :: cs => piecesAfter ((Cut.first c cs).piece :: found) (Cut.first c cs).rest
termination_by text => text.length
decreasing_by exact Nat.lt_succ_of_le (Cut.length_rest_first_le c cs)

theorem piecesAfter_eq (found : List Piece) (text : List Char) :
    piecesAfter found text = found.reverse ++ piecesAfter [] text := by
  match text with
  | [] => simp [piecesAfter]
  | c :: cs =>
    rw [piecesAfter, piecesAfter_eq (_ :: found), piecesAfter, piecesAfter_eq [_]]
    simp
termination_by text.length
decreasing_by all_goals exact Nat.lt_succ_of_le (Cut.length_rest_first_le _ _)

def pieces (text : List Char) : List Piece := piecesAfter [] text

@[simp] theorem pieces_nil : pieces [] = [] := by simp [pieces, piecesAfter]

theorem pieces_cons (c : Char) (cs : List Char) :
    pieces (c :: cs) = (Cut.first c cs).piece :: pieces (Cut.first c cs).rest := by
  rw [pieces, piecesAfter, piecesAfter_eq]
  rfl

end LoxLexer
