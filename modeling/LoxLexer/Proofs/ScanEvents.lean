import LoxLexer.Proofs.FirstPiece
import LoxLexer.Proofs.Messages
import LoxLexer.Scan.Basic

/-!
# What a scan is made of

The tokens and the diagnostics of a scan are those of the text's events, and the events come piece
by piece: those of the first piece, and those of the rest from the piece's end on.
-/

namespace LoxLexer

/-! ## Tokens and diagnostics of events -/

def tokensOf (es : List Event) : List Token := es.filterMap Event.token?

def diagnosticsOf (es : List Event) : List Diagnostic :=
  (es.filterMap Event.error?).map LexicalError.diagnostic

@[simp] theorem tokensOf_nil : tokensOf [] = [] := rfl

@[simp] theorem tokensOf_token (t : Token) (es : List Event) :
    tokensOf (.token t :: es) = t :: tokensOf es := rfl

@[simp] theorem tokensOf_error (e : LexicalError) (es : List Event) :
    tokensOf (.error e :: es) = tokensOf es := rfl

@[simp] theorem tokensOf_append (es fs : List Event) :
    tokensOf (es ++ fs) = tokensOf es ++ tokensOf fs := List.filterMap_append

@[simp] theorem diagnosticsOf_nil : diagnosticsOf [] = [] := rfl

@[simp] theorem diagnosticsOf_token (t : Token) (es : List Event) :
    diagnosticsOf (.token t :: es) = diagnosticsOf es := rfl

@[simp] theorem diagnosticsOf_error (e : LexicalError) (es : List Event) :
    diagnosticsOf (.error e :: es) = e.diagnostic :: diagnosticsOf es := rfl

@[simp] theorem diagnosticsOf_append (es fs : List Event) :
    diagnosticsOf (es ++ fs) = diagnosticsOf es ++ diagnosticsOf fs := by
  simp [diagnosticsOf]

theorem tokensOf_flatMap {α : Type} (f : α → List Event) (as : List α) :
    tokensOf (as.flatMap f) = as.flatMap fun a => tokensOf (f a) := List.filterMap_flatMap

theorem diagnosticsOf_flatMap {α : Type} (f : α → List Event) (as : List α) :
    diagnosticsOf (as.flatMap f) = as.flatMap fun a => diagnosticsOf (f a) := by
  rw [diagnosticsOf, List.filterMap_flatMap, List.map_flatMap]
  rfl

theorem LexicalError.span_diagnostic (e : LexicalError) : e.diagnostic.span = some e.span := by
  cases e <;> rfl

theorem mem_diagnosticsOf {es : List Event} {d : Diagnostic} (h : d ∈ diagnosticsOf es) :
    ∃ e, Event.error e ∈ es ∧ e.diagnostic = d := by
  obtain ⟨e, he, rfl⟩ := List.mem_map.1 h
  obtain ⟨event, hevent, herror⟩ := List.mem_filterMap.1 he
  cases event with
  | token t => cases herror
  | error _ =>
      cases herror
      exact ⟨e, hevent, rfl⟩

theorem mem_tokensOf {es : List Event} {t : Token} (h : t ∈ tokensOf es) : Event.token t ∈ es := by
  obtain ⟨event, hevent, htoken⟩ := List.mem_filterMap.1 h
  cases event with
  | token _ =>
      cases htoken
      exact hevent
  | error e => cases htoken

theorem map_tokensOf_sublist {α : Type} (f : Event → α) (es : List Event) :
    ((tokensOf es).map fun t => f (.token t)).Sublist (es.map f) := by
  induction es with
  | nil => exact .slnil
  | cons e es ih =>
      cases e with
      | token t => exact ih.cons_cons _
      | error e => exact ih.cons _

theorem map_errors_sublist {α : Type} (f : Event → α) (es : List Event) :
    ((es.filterMap Event.error?).map fun e => f (.error e)).Sublist (es.map f) := by
  induction es with
  | nil => exact .slnil
  | cons e es ih =>
      cases e with
      | token t => exact ih.cons _
      | error e => exact ih.cons_cons _

theorem foldl_take {σ : Type} (sink : Sink σ) (es : List Event) (tokens : Array Token) (state : σ) :
    es.foldl sink.take (tokens, state) =
      (tokens ++ (tokensOf es).toArray, (diagnosticsOf es).foldl sink.reportDiagnostic state) := by
  induction es generalizing tokens state with
  | nil => simp
  | cons e es ih => cases e <;> simp [Sink.take, ih]

theorem scanInto_eq {σ : Type} (sink : Sink σ) (source : String) (state : σ) :
    scanInto sink source state =
      (tokensOf (events source) ++
          [.eof (Location.start.after source.toList).line
            (Location.start.after source.toList).offset],
        (diagnosticsOf (events source)).foldl sink.reportDiagnostic state) := by
  simp [scanInto, foldl_take]

theorem Collection.toList_foldl_add (ds : List Diagnostic) (c : Collection) :
    (ds.foldl add c).toList = c.toList ++ ds := by
  induction ds generalizing c with
  | nil => simp
  | cons d ds ih => simp [ih]

theorem tokens_scan (source : String) :
    (scan source).tokens = tokensOf (events source) ++
      [.eof (Location.start.after source.toList).line
        (Location.start.after source.toList).offset] := by
  rw [scan, scanInto_eq]

theorem diagnostics_scan (source : String) :
    (scan source).diagnostics.toList = diagnosticsOf (events source) := by
  rw [scan, scanInto_eq]
  exact Collection.toList_foldl_add _ _

/-! ## Piece by piece -/

/-- The span of a text that begins at a location. -/
def Location.spanOf (l : Location) (text : List Char) : Span :=
  .covering l.offset (l.after text).offset (l.offset_le_offset_after text)

def eventsAt (l : Location) (text : List Char) : List Event := eventsFrom l (pieces text)

@[simp] theorem eventsAt_nil (l : Location) : eventsAt l [] = [] := by simp [eventsAt]

theorem eventsAt_cons (l : Location) (c : Char) (cs : List Char) :
    eventsAt l (c :: cs) = ((Cut.first c cs).piece.event? l).toList ++
      eventsAt (l.after (Cut.first c cs).piece.text) (Cut.first c cs).rest := by
  rw [eventsAt, pieces_cons, eventsFrom_cons]
  rfl

theorem eventsAt_longest {p : Piece} {rest : List Char} (h : Longest p (p.text ++ rest))
    (l : Location) :
    eventsAt l (p.text ++ rest) = (p.event? l).toList ++ eventsAt (l.after p.text) rest := by
  cases htext : p.text ++ rest with
  | nil => exact absurd (List.append_eq_nil_iff.1 htext).1 h.lexeme.text_ne_nil
  | cons c cs =>
      rw [htext] at h
      rw [eventsAt_cons, h.first_eq htext]

theorem eventsAt_token {kind : Kind} {chars rest : List Char} {literal : Literal}
    (h : Longest (.token kind chars literal) (chars ++ rest)) (l : Location) :
    eventsAt l (chars ++ rest) =
      .token ⟨kind, .ofList chars, literal, (l.after chars).line, l.spanOf chars⟩ ::
        eventsAt (l.after chars) rest :=
  eventsAt_longest h l

theorem eventsAt_trivia {chars rest : List Char} (h : Longest (.trivia chars) (chars ++ rest))
    (l : Location) : eventsAt l (chars ++ rest) = eventsAt (l.after chars) rest :=
  eventsAt_longest h l

theorem eventsAt_unclosed {cs : List Char} (h : '"' ∉ cs) (l : Location) :
    eventsAt l ('"' :: cs) =
      [.error (.unterminatedString (l.after ('"' :: cs)).line (l.spanOf ('"' :: cs)))] := by
  rw [eventsAt_cons, show Cut.first '"' cs = _ from Cut.quoted_of_not_mem h, eventsAt_nil]
  rfl

theorem eventsAt_stray {c : Char} (h : ¬Begins c) (cs : List Char) (l : Location) :
    eventsAt l (c :: cs) =
      .error (.unexpectedCharacter (l.after [c]).line c (l.spanOf [c])) ::
        eventsAt (l.after [c]) cs := by
  rw [eventsAt_cons, Cut.first_of_not_begins h]
  rfl

/-- A text is empty, or begins with its longest lexeme, or is an unclosed string, or begins with a
character that begins nothing. -/
@[elab_as_elim]
theorem scan_induction {motive : List Char → Prop} (nil : motive [])
    (token : ∀ kind chars literal rest, Longest (.token kind chars literal) (chars ++ rest) →
      motive rest → motive (chars ++ rest))
    (trivia : ∀ chars rest, Longest (.trivia chars) (chars ++ rest) →
      motive rest → motive (chars ++ rest))
    (unclosed : ∀ cs, '"' ∉ cs → motive ('"' :: cs))
    (stray : ∀ c cs, ¬Begins c → motive cs → motive (c :: cs)) (text : List Char) :
    motive text := by
  match text with
  | [] => exact nil
  | c :: cs =>
      have ih := scan_induction nil token trivia unclosed stray (Cut.first c cs).rest
      have hspec := Cut.first_spec c cs
      generalize Cut.first c cs = cut at hspec ih
      cases hspec with
      | @lexeme _ _ cut h happ =>
          obtain ⟨p, rest⟩ := cut
          rw [← happ] at h ⊢
          cases p with
          | token kind chars literal => exact token kind chars literal rest h ih
          | trivia chars => exact trivia chars rest h ih
          | stray d => exact absurd h.lexeme nofun
          | unclosed chars => exact absurd h.lexeme nofun
      | unclosed h => exact unclosed cs h
      | stray h => exact stray c cs h ih
termination_by text.length
decreasing_by exact Nat.lt_succ_of_le (Cut.length_rest_first_le c cs)

/-! ## The tokens are lexemes -/

theorem lexeme_of_mem {l : Location} {text : List Char} {t : Token}
    (ht : t ∈ tokensOf (eventsAt l text)) :
    Lexeme (.token t.kind t.lexeme.toList t.literal) := by
  induction text using scan_induction generalizing l with
  | nil => simp at ht
  | token kind chars literal rest h ih =>
      rw [eventsAt_token h, tokensOf_token] at ht
      rcases List.mem_cons.1 ht with rfl | ht
      · simpa using h.lexeme
      · exact ih ht
  | trivia chars rest h ih =>
      rw [eventsAt_trivia h] at ht
      exact ih ht
  | unclosed cs h => simp [eventsAt_unclosed h] at ht
  | stray c cs h ih =>
      rw [eventsAt_stray h, tokensOf_error] at ht
      exact ih ht

theorem Lexeme.kind_ne_eof {kind : Kind} {chars : List Char} {literal : Literal}
    (h : Lexeme (.token kind chars literal)) : kind ≠ .eof := by
  rintro rfl
  cases h with
  | mark hm => simp [marks] at hm
  | pair hm => simp [pairs] at hm

/-- The tokens without the one that ends the text. -/
def Scan.lexemes (s : Scan) : List Token := s.tokens.filter fun t => !t.isEof

theorem lexemes_scan (source : String) : (scan source).lexemes = tokensOf (events source) := by
  have hkeep : ∀ t ∈ tokensOf (events source), (!t.isEof) = true := fun t ht => by
    simpa [Token.isEof] using (lexeme_of_mem ht).kind_ne_eof
  rw [Scan.lexemes, tokens_scan, List.filter_append, List.filter_eq_self.2 hkeep]
  exact List.append_nil _

end LoxLexer
