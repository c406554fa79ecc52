import LoxLexer.Proofs.Tiling

/-!
# Texts further on

A text that begins some bytes and lines further on has the same events, that much further on. No
offset may be cut off for that.
-/

namespace LoxLexer

/-! ## Further on -/

/-- The same bytes further on. An offset that does not fit is cut off. -/
def Span.shift (bytes : Nat) (s : Span) : Span := ⟨.ofOffset (s.first + bytes), s.length⟩

def Location.shift (bytes lines : Nat) (l : Location) : Location :=
  ⟨l.offset + bytes, l.line + lines⟩

def Token.shift (bytes lines : Nat) (t : Token) : Token :=
  { t with line := t.line + lines, span := t.span.shift bytes }

def Diagnostic.shift (bytes lines : Nat) (d : Diagnostic) : Diagnostic :=
  { d with line := d.line + lines, span := d.span.map (Span.shift bytes) }

def LexicalError.shift (bytes lines : Nat) : LexicalError → LexicalError
  | .unexpectedCharacter line c span => .unexpectedCharacter (line + lines) c (span.shift bytes)
  | .unterminatedString line span => .unterminatedString (line + lines) (span.shift bytes)

def Event.shift (bytes lines : Nat) : Event → Event
  | .token t => .token (t.shift bytes lines)
  | .error e => .error (e.shift bytes lines)

variable {bytes lines : Nat}

theorem LexicalError.diagnostic_shift (e : LexicalError) :
    (e.shift bytes lines).diagnostic = e.diagnostic.shift bytes lines := by
  cases e <;> rfl

theorem Event.Unclosed.of_shift {e : Event} (h : (e.shift bytes lines).Unclosed) :
    e.Unclosed := by
  cases e with
  | token t => cases h
  | error e =>
      cases e with
      | unexpectedCharacter line c span => cases h
      | unterminatedString line span => exact .string

theorem tokensOf_map_shift (es : List Event) :
    tokensOf (es.map (Event.shift bytes lines)) = (tokensOf es).map (Token.shift bytes lines) := by
  induction es with
  | nil => rfl
  | cons e es ih =>
      cases e with
      | token t => exact congrArg (t.shift bytes lines :: ·) ih
      | error e => exact ih

theorem diagnosticsOf_map_shift (es : List Event) :
    diagnosticsOf (es.map (Event.shift bytes lines)) =
      (diagnosticsOf es).map (Diagnostic.shift bytes lines) := by
  induction es with
  | nil => rfl
  | cons e es ih =>
      cases e with
      | token t => exact ih
      | error e =>
          rw [List.map_cons, Event.shift, diagnosticsOf_error, diagnosticsOf_error, List.map_cons,
            e.diagnostic_shift, ih]

/-! ## Spans that are not cut off -/

theorem Location.after_shift (l : Location) (text : List Char) :
    (l.shift bytes lines).after text = (l.after text).shift bytes lines := by
  simp only [after, shift, mk.injEq]
  omega

theorem Location.spanOf_shift {l : Location} {text : List Char}
    (h : (l.after text).offset + bytes ≤ 4294967295) :
    (l.shift bytes lines).spanOf text = (l.spanOf text).shift bytes := by
  have hfits : (l.after text).offset ≤ 4294967295 := Nat.le_trans (Nat.le_add_right _ _) h
  have hlength : ((l.shift bytes lines).spanOf text).length = (l.spanOf text).length := by
    apply UInt32.toNat_inj.1
    rw [length_spanOf hfits, length_spanOf]
    rwa [after_shift]
  rw [Span.shift, first_spanOf hfits, ← hlength]
  rfl

theorem Token.eof_shift {line stop : Nat} (h : stop ≤ 4294967295) :
    (eof line stop).shift bytes lines = eof (line + lines) (stop + bytes) := by
  have hspan : (eof line stop).span.shift bytes = (eof (line + lines) (stop + bytes)).span := by
    rw [Span.shift, first_eof h]
    simp [eof, Span.covering, Span.between]
  rw [shift, hspan]
  rfl

/-! ## Events further on -/

theorem eventsAt_shift (l : Location) (text : List Char)
    (h : (l.after text).offset + bytes ≤ 4294967295) :
    eventsAt (l.shift bytes lines) text = (eventsAt l text).map (Event.shift bytes lines) := by
  induction text using scan_induction generalizing l with
  | nil => simp
  | token kind chars literal rest hp ih =>
      rw [Location.after_append] at h
      have hchars : (l.after chars).offset + bytes ≤ 4294967295 :=
        Nat.le_trans (Nat.add_le_add_right (Location.offset_le_offset_after _ rest) bytes) h
      rw [eventsAt_token hp, eventsAt_token hp, Location.spanOf_shift hchars, Location.after_shift,
        ih _ h]
      rfl
  | trivia chars rest hp ih =>
      rw [Location.after_append] at h
      rw [eventsAt_trivia hp, eventsAt_trivia hp, Location.after_shift, ih _ h]
  | unclosed cs hq =>
      rw [eventsAt_unclosed hq, eventsAt_unclosed hq, Location.after_shift,
        Location.spanOf_shift h]
      rfl
  | stray c cs hb ih =>
      rw [← List.singleton_append, Location.after_append] at h
      have hc : (l.after [c]).offset + bytes ≤ 4294967295 :=
        Nat.le_trans (Nat.add_le_add_right (Location.offset_le_offset_after _ cs) bytes) h
      rw [eventsAt_stray hb, eventsAt_stray hb, Location.spanOf_shift hc, Location.after_shift,
        ih _ h]
      rfl

end LoxLexer
