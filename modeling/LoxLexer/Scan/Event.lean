import LoxLexer.Scan.Cut
import LoxLexer.Scan.LexicalError
import LoxLexer.Text.Location
import LoxLexer.Token.Basic

/-!
# Events

A piece that is put at its place in the text is a token or an error, unless it is trivia. It takes
its span from the bytes before and after it, and its line from its end.
-/

namespace LoxLexer

inductive Event
  | token (t : Token)
  | error (e : LexicalError)
deriving DecidableEq

namespace Event

def token? : Event → Option Token
  | .token t => some t
  | .error _ => none

def error? : Event → Option LexicalError
  | .token _ => none
  | .error e => some e

end Event

/-- What the piece is when it begins at the given location. -/
def Piece.event? (piece : Piece) (l : Location) : Option Event :=
  let stop := l.after piece.text
  let span := Span.covering l.offset stop.offset (l.offset_le_offset_after piece.text)
  match piece with
  | .token kind chars literal => some (.token ⟨kind, .ofList chars, literal, stop.line, span⟩)
  | .trivia _ => none
  | .stray c => some (.error (.unexpectedCharacter stop.line c span))
  | .unclosed _ => some (.error (.unterminatedString stop.line span))

/-- The events of pieces that follow one another, after those already found, the last of which comes
first. -/
def eventsAfter (found : List Event) (l : Location) : List Piece → List Event
  | [] => found.reverse
  | piece :: rest =>
    eventsAfter ((piece.event? l).toList ++ found) (l.after piece.text) rest

theorem eventsAfter_eq (found : List Event) (l : Location) (ps : List Piece) :
    eventsAfter found l ps = found.reverse ++ eventsAfter [] l ps := by
  induction ps generalizing found l with
  | nil => simp [eventsAfter]
  | cons piece rest ih =>
    rw [eventsAfter, eventsAfter, ih, ih (_ ++ [])]
    cases piece.event? l <;> simp

def eventsFrom (l : Location) (ps : List Piece) : List Event := eventsAfter [] l ps

@[simp] theorem eventsFrom_nil (l : Location) : eventsFrom l [] = [] := rfl

theorem eventsFrom_cons (l : Location) (piece : Piece) (rest : List Piece) :
    eventsFrom l (piece :: rest) =
      (piece.event? l).toList ++ eventsFrom (l.after piece.text) rest := by
  rw [eventsFrom, eventsAfter, eventsAfter_eq]
  cases piece.event? l <;> rfl

def events (source : String) : List Event := eventsFrom .start (pieces source.toList)

end LoxLexer
