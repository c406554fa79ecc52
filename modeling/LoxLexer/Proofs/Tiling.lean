import LoxLexer.Proofs.Bytes
import LoxLexer.Proofs.ScanEvents

/-!
# Where events stand

The events of a text lie in it one after the other, with nothing but blanks and comments between
them. `Tiling` is this invariant: it holds of every text and its events (`tiling_eventsAt`), as long
as no offset is cut off.
-/

namespace LoxLexer

/-! ## Spans as offsets -/

namespace Span

/-- The offset of the first byte. -/
def first (s : Span) : Nat := s.start.toNat

/-- The offset after the last byte. -/
def last (s : Span) : Nat := s.start.toNat + s.length.toNat

end Span

namespace Location

variable {l : Location} {text : List Char}

theorem first_spanOf (h : (l.after text).offset ≤ 4294967295) :
    (l.spanOf text).first = l.offset := by
  have hle := l.offset_le_offset_after text
  rw [Span.first, spanOf, Span.start_covering, Position.toNat_ofOffset]
  omega

theorem last_spanOf (h : (l.after text).offset ≤ 4294967295) :
    (l.spanOf text).last = (l.after text).offset := by
  rw [Span.last, spanOf, Span.toNat_start_add_length_covering]
  omega

theorem length_spanOf (h : (l.after text).offset ≤ 4294967295) :
    (l.spanOf text).length.toNat = byteSize text := by
  have hfirst := first_spanOf h
  have hlast := last_spanOf h
  simp only [Span.first, Span.last, after] at hfirst hlast
  omega

end Location

namespace Token

variable {line stop : Nat}

theorem first_eof (h : stop ≤ 4294967295) : (eof line stop).span.first = stop := by
  rw [eof, Span.first, Span.start_covering, Position.toNat_ofOffset]
  omega

theorem last_eof (h : stop ≤ 4294967295) : (eof line stop).span.last = stop := by
  rw [eof, Span.last, Span.toNat_start_add_length_covering]
  omega

end Token

/-! ## Trivia -/

/-- Blanks and comments. A comment goes on to its line feed; only at the end of the source it may
lack it. -/
inductive Trivia (atEnd : Prop) : List Char → Prop
  | nil : Trivia atEnd []
  | blank {c cs} (hc : c ∈ blanks) (hcs : Trivia atEnd cs) : Trivia atEnd (c :: cs)
  | comment {body cs} (hbody : '\n' ∉ body) (hcs : Trivia atEnd cs) :
      Trivia atEnd ('/' :: '/' :: body ++ '\n' :: cs)
  | last {body} (hbody : '\n' ∉ body) (hend : atEnd) : Trivia atEnd ('/' :: '/' :: body)

namespace Trivia

theorem mono {p q : Prop} (hpq : p → q) {text : List Char} (h : Trivia p text) : Trivia q text := by
  induction h with
  | nil => exact .nil
  | blank hc _ ih => exact .blank hc ih
  | comment hbody _ ih => exact .comment hbody ih
  | last hbody hend => exact .last hbody (hpq hend)

theorem of_newline {atEnd : Prop} {cs : List Char} (h : Trivia atEnd ('\n' :: cs)) :
    Trivia atEnd cs := by
  cases h with
  | blank _ hcs => exact hcs

end Trivia

/-- A comment that is as long as it can be ends at a line feed or with the text. -/
theorem Longest.comment_end {body rest : List Char}
    (h : Longest (.trivia ('/' :: '/' :: body)) ('/' :: '/' :: body ++ rest)) :
    rest = [] ∨ ∃ cs, rest = '\n' :: cs := by
  cases rest with
  | nil => exact .inl rfl
  | cons c cs =>
      by_cases hc : c = '\n'
      · subst hc
        exact .inr ⟨cs, rfl⟩
      · cases h.lexeme with
        | comment hbody =>
            have hlonger : Lexeme (.trivia ('/' :: '/' :: (body ++ [c]))) :=
              .comment (by simp [hbody, Ne.symm hc])
            have hle := h.length_le _ hlonger ⟨cs, by simp [Piece.text]⟩
            exact absurd hle (by simp [Piece.text])

/-! ## Events at their places -/

namespace Event

def span : Event → Span
  | .token t => t.span
  | .error e => e.span

def line : Event → Nat
  | .token t => t.line
  | .error e => e.line

theorem span_eq {p : Piece} {l : Location} {e : Event} (he : e ∈ p.event? l) :
    e.span = l.spanOf p.text := by
  cases p with
  | trivia chars => cases he
  | _ => cases he; rfl

/-- The event tells of a piece of text, from its span to its line. -/
inductive TellsOf : Event → List Char → Prop
  | token {t} : TellsOf (.token t) t.lexeme.toList
  | character {line c span} : TellsOf (.error (.unexpectedCharacter line c span)) [c]
  | unclosed {line span cs} : TellsOf (.error (.unterminatedString line span)) ('"' :: cs)

inductive Unclosed : Event → Prop
  | string {line span} : Unclosed (.error (.unterminatedString line span))

/-- The event tells of a piece of text that begins at a location and has a rest after it. -/
structure At (e : Event) (l : Location) (text rest : List Char) : Prop where
  tells : e.TellsOf text
  first : e.span.first = l.offset
  last : e.span.last = (l.after text).offset
  line : e.line = (l.after text).line
  nonempty : text ≠ []
  head : text.head? ≠ some '\n'
  at_end : e.Unclosed → rest = []

end Event

namespace Event.At

variable {e : Event} {before text rest : List Char}

theorem first_eq (h : e.At (Location.start.after before) text rest) :
    e.span.first = byteSize before := by
  rw [h.first]
  exact Nat.zero_add _

theorem last_eq (h : e.At (Location.start.after before) text rest) :
    e.span.last = byteSize (before ++ text) := by
  rw [h.last, ← Location.after_append]
  exact Nat.zero_add _

theorem line_eq (h : e.At (Location.start.after before) text rest) :
    e.line = 1 + (before ++ text).count '\n' := by
  rw [h.line, ← Location.after_append]
  rfl

end Event.At

/-! ## Tilings -/

/-- Events one after the other, with trivia before, between and after them. -/
inductive Tiling : Location → List Char → List Event → Prop
  | gap {l text} (h : Trivia True text) : Tiling l text []
  | event {l gap text rest e es} (hgap : Trivia False gap) (he : e.At (l.after gap) text rest)
      (hrest : Tiling ((l.after gap).after text) rest es) :
      Tiling l (gap ++ (text ++ rest)) (e :: es)

namespace Tiling

theorem event_first {l : Location} {text rest : List Char} {e : Event} {es : List Event}
    (he : e.At l text rest) (hrest : Tiling (l.after text) rest es) :
    Tiling l (text ++ rest) (e :: es) :=
  @event l [] text rest e es .nil he hrest

theorem trivia_first {l : Location} {chars rest : List Char} {es : List Event}
    (h : Longest (.trivia chars) (chars ++ rest)) (hrest : Tiling (l.after chars) rest es) :
    Tiling l (chars ++ rest) es := by
  cases hrest with
  | gap hgap =>
      refine .gap ?_
      cases h.lexeme with
      | blank hc => exact .blank hc hgap
      | comment hbody =>
          rcases h.comment_end with rfl | ⟨cs, rfl⟩
          · rw [List.append_nil]
            exact .last hbody trivial
          · exact .comment hbody hgap.of_newline
  | @event _ gap text rest e es hgap he hrest =>
      have hloc : (l.after chars).after gap = l.after (chars ++ gap) :=
        (Location.after_append l chars gap).symm
      rw [hloc] at he hrest
      rw [← List.append_assoc]
      refine .event ?_ he hrest
      cases h.lexeme with
      | blank hc => exact .blank hc hgap
      | comment hbody =>
          -- The gap has the comment's line feed, since no event begins with one.
          cases gap with
          | nil =>
              rcases h.comment_end with hnil | ⟨cs, hcs⟩
              · exact absurd (List.append_eq_nil_iff.1 hnil).2 (by simp [he.nonempty])
              · cases text with
                | nil => exact absurd rfl he.nonempty
                | cons d ds =>
                    cases hcs
                    exact absurd rfl he.head
          | cons d ds =>
              rcases h.comment_end with hnil | ⟨cs, hcs⟩
              · cases hnil
              · cases hcs
                exact .comment hbody hgap.of_newline

end Tiling

/-! ## Every text is tiled by its events -/

theorem Lexeme.head_ne_newline {kind : Kind} {chars : List Char} {literal : Literal}
    (h : Lexeme (.token kind chars literal)) : chars.head? ≠ some '\n' := by
  intro hhead
  rw [(h.kind_of_newline_mem (List.mem_of_head? hhead)).2] at hhead
  cases hhead

theorem tiling_eventsAt (l : Location) (text : List Char)
    (h : (l.after text).offset ≤ 4294967295) : Tiling l text (eventsAt l text) := by
  -- By the pieces of the text. No offset of a piece is cut off, since the last one is not.
  induction text using scan_induction generalizing l with
  | nil => rw [eventsAt_nil]; exact .gap .nil
  | token kind chars literal rest hp ih =>
      rw [Location.after_append] at h
      have hchars := Nat.le_trans ((l.after chars).offset_le_offset_after rest) h
      rw [eventsAt_token hp]
      refine .event_first ⟨?_, Location.first_spanOf hchars, Location.last_spanOf hchars, rfl,
        hp.lexeme.text_ne_nil, hp.lexeme.head_ne_newline, nofun⟩ (ih _ h)
      simpa using Event.TellsOf.token (t := ⟨kind, .ofList chars, literal, _, _⟩)
  | trivia chars rest hp ih =>
      rw [Location.after_append] at h
      rw [eventsAt_trivia hp]
      exact .trivia_first hp (ih _ h)
  | unclosed cs hq =>
      rw [eventsAt_unclosed hq]
      rw [← List.append_nil ('"' :: cs)]
      refine .event_first ⟨.unclosed, ?_, ?_, ?_, by simp, by simp, fun _ => rfl⟩ (.gap .nil)
      · simpa using! Location.first_spanOf h
      · simpa using! Location.last_spanOf h
      · simp [Event.line, LexicalError.line]
  | stray c cs hb ih =>
      rw [← List.singleton_append, Location.after_append] at h
      have hc := Nat.le_trans ((l.after [c]).offset_le_offset_after cs) h
      rw [eventsAt_stray hb]
      refine .event_first ⟨.character, Location.first_spanOf hc, Location.last_spanOf hc, rfl,
        by simp, ?_, nofun⟩ (ih _ h)
      rintro ⟨⟩
      exact hb (.inl (by decide))

/-! ## What a tiling tells of its events -/

namespace Tiling

variable {l : Location} {text : List Char} {es : List Event}

/-- Every event stands somewhere in the text. -/
theorem exists_at (h : Tiling l text es) {e : Event} (he : e ∈ es) :
    ∃ before t after, text = before ++ t ++ after ∧ e.At (l.after before) t after := by
  induction h with
  | gap _ => cases he
  | @event l gap t rest d ds _ hd _ ih =>
      rcases List.mem_cons.1 he with rfl | he
      · exact ⟨gap, t, rest, (List.append_assoc gap t rest).symm, hd⟩
      · obtain ⟨before, u, after, rfl, hu⟩ := ih he
        refine ⟨gap ++ (t ++ before), u, after, by simp, ?_⟩
        rwa [Location.after_append, Location.after_append]

theorem offset_le_first (h : Tiling l text es) {e : Event} (he : e ∈ es) :
    l.offset ≤ e.span.first := by
  obtain ⟨before, t, after, _, hat⟩ := h.exists_at he
  rw [hat.first]
  exact l.offset_le_offset_after before

theorem first_lt_last (h : Tiling l text es) {e : Event} (he : e ∈ es) :
    e.span.first < e.span.last := by
  obtain ⟨before, t, after, _, hat⟩ := h.exists_at he
  rw [hat.first, hat.last]
  exact Nat.lt_add_of_pos_right (byteSize_pos hat.nonempty)

theorem last_le_offset_after (h : Tiling l text es) {e : Event} (he : e ∈ es) :
    e.span.last ≤ (l.after text).offset := by
  obtain ⟨before, t, after, htext, hat⟩ := h.exists_at he
  rw [hat.last, htext, Location.after_append, Location.after_append]
  exact Location.offset_le_offset_after _ _

theorem pairwise (h : Tiling l text es) : es.Pairwise fun d e => d.span.last ≤ e.span.first := by
  induction h with
  | gap _ => exact .nil
  | event _ hd hrest ih =>
      refine .cons (fun e he => ?_) ih
      rw [hd.last]
      exact hrest.offset_le_first he

theorem line_le_line (h : Tiling l text es) {e : Event} (he : e ∈ es) : l.line ≤ e.line := by
  obtain ⟨before, t, after, _, hat⟩ := h.exists_at he
  rw [hat.line]
  exact Nat.le_trans (Nat.le_add_right _ _) (Nat.le_add_right _ _)

theorem line_le_line_after (h : Tiling l text es) {e : Event} (he : e ∈ es) :
    e.line ≤ (l.after text).line := by
  obtain ⟨before, t, after, htext, hat⟩ := h.exists_at he
  rw [hat.line, htext, Location.after_append, Location.after_append]
  exact Nat.le_add_right _ _

theorem pairwise_line (h : Tiling l text es) : es.Pairwise fun d e => d.line ≤ e.line := by
  induction h with
  | gap _ => exact .nil
  | event _ hd hrest ih =>
      refine .cons (fun e he => ?_) ih
      rw [hd.line]
      exact hrest.line_le_line he

theorem holds {source : String} (h : Tiling .start source.toList es) {e : Event} (he : e ∈ es) :
    ∃ text, e.TellsOf text ∧ Holds source e.span.first e.span.last (.ofList text) := by
  obtain ⟨before, t, after, htext, hat⟩ := h.exists_at he
  rw [hat.first_eq, hat.last_eq]
  exact ⟨t, hat.tells, .of_toList htext⟩

theorem unclosed_last (h : Tiling l text es) {e : Event} (he : e ∈ es) (hun : e.Unclosed) :
    ∃ ds, es = ds ++ [e] ∧ ∀ d ∈ ds, ¬d.Unclosed := by
  induction h with
  | gap _ => cases he
  | @event l gap t rest d ds _ hd hrest ih =>
      by_cases hund : d.Unclosed
      · cases hd.at_end hund
        cases ds with
        | nil =>
            cases List.mem_singleton.1 he
            exact ⟨[], rfl, fun d hd => absurd hd List.not_mem_nil⟩
        | cons f fs =>
            -- No event stands in an empty text.
            obtain ⟨before, u, after, hnil, hat⟩ := hrest.exists_at List.mem_cons_self
            rw [List.nil_eq, List.append_eq_nil_iff, List.append_eq_nil_iff] at hnil
            exact absurd hnil.1.2 hat.nonempty
      · rcases List.mem_cons.1 he with rfl | he
        · exact absurd hun hund
        · obtain ⟨fs, rfl, hfs⟩ := ih he
          refine ⟨d :: fs, rfl, fun f hf => ?_⟩
          rcases List.mem_cons.1 hf with rfl | hf
          · exact hund
          · exact hfs f hf

end Tiling

end LoxLexer
