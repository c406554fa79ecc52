import LoxLexer.Proofs.LineMap
import LoxLexer.Proofs.Partition

/-!
# The lines of a scan are those of the line map

A scan counts line feeds as it goes; a line map looks them up. Both give the line on which a span
ends, for every token and every diagnostic. A span begins on another line only if it is a string
with a line feed in it.
-/

namespace LoxLexer

/-! ## The line on which a span ends -/

/-- The span ends on the line, by the line map and by counting line feeds. -/
structure EndsOn (source : String) (p : Span) (line : Nat) : Prop where
  counted : line = 1 + lineFeeds source 0 p.last
  mapped : ∃ stop, p.stop = .ok stop ∧ stop.toNat = p.last ∧
    (LineMap.ofText source).lineOf stop = line
  from_start : (LineMap.ofText source).lineOf p.start + lineFeeds source p.first p.last = line
  fits : line ≤ 4294967295

/-- The lines of a scan agree with the line map of its source. -/
structure LinesAgree (source : String) (s : Scan) : Prop where
  tokens : ∀ t ∈ s.tokens, EndsOn source t.span t.line
  diagnostics : ∀ d ∈ s.diagnostics.toList, ∃ p, d.span = some p ∧ EndsOn source p d.line
  tokens_spread : ∀ t ∈ s.tokens, (LineMap.ofText source).lineOf t.span.start ≠ t.line ↔
    t.kind = .string ∧ '\n' ∈ t.lexeme.toList
  diagnostics_spread : ∀ d ∈ s.diagnostics.toList, ∀ p, d.span = some p →
    ((LineMap.ofText source).lineOf p.start ≠ d.line ↔
      d.code = 1002 ∧ 0 < lineFeeds source p.first p.last)
  tokens_in_order : (s.tokens.map Token.line).Pairwise (· ≤ ·)
  diagnostics_in_order : (s.diagnostics.toList.map Diagnostic.line).Pairwise (· ≤ ·)

theorem Span.exists_stop {p : Span} (h : p.last < 4294967296) :
    ∃ stop, p.stop = .ok stop ∧ stop.toNat = p.last := by
  refine ⟨p.start + p.length, Position.add_eq_ok h, ?_⟩
  rw [UInt32.toNat_add]
  exact Nat.mod_eq_of_lt h

namespace EndsOn

variable {source : String} {p : Span}

theorem of_toList (h : source.utf8ByteSize < 4294967295) {before text after : List Char}
    (hsource : source.toList = before ++ text ++ after) (hfirst : p.first = byteSize before)
    (hlast : p.last = byteSize (before ++ text)) :
    EndsOn source p (1 + (before ++ text).count '\n') := by
  have hsize : source.utf8ByteSize = byteSize (before ++ text) + byteSize after := by
    rw [← byteSize_toList, hsource, byteSize_append]
  have hcount := lineFeeds_front hsource
  have hstart := lineFeeds_front (hsource.trans (List.append_assoc ..))
  have hspan := lineFeeds_of_toList hsource
  rw [← hlast] at hcount hspan
  rw [← hfirst] at hstart hspan
  obtain ⟨stop, hstop, hnat⟩ := p.exists_stop (by omega)
  refine ⟨by rw [hcount], ⟨stop, hstop, hnat, ?_⟩, ?_, ?_⟩
  · rw [LineMap.lineOf_ofText (Nat.le_of_lt h), hnat, hcount]
  · rw [LineMap.lineOf_ofText (Nat.le_of_lt h), hspan, List.count_append, Nat.add_assoc]
    rw [← hstart]
    rfl
  · have hle := count_le_byteSize (before ++ text)
    omega

theorem lineOf_start_ne {line : Nat} (h : EndsOn source p line) :
    (LineMap.ofText source).lineOf p.start ≠ line ↔ 0 < lineFeeds source p.first p.last := by
  have hline := h.from_start
  omega

end EndsOn

/-! ## The lines of events -/

namespace Tiling

variable {source : String} {es : List Event}

theorem endsOn (h : Tiling .start source.toList es) (hsize : source.utf8ByteSize < 4294967295)
    {e : Event} (he : e ∈ es) : EndsOn source e.span e.line := by
  obtain ⟨before, t, after, htext, hat⟩ := h.exists_at he
  rw [hat.line_eq]
  exact .of_toList hsize htext hat.first_eq hat.last_eq

theorem endsOn_token (h : Tiling .start source.toList es)
    (hsize : source.utf8ByteSize < 4294967295) {t : Token} (ht : t ∈ tokensOf es) :
    EndsOn source t.span t.line := h.endsOn hsize (mem_tokensOf ht)

theorem endsOn_error (h : Tiling .start source.toList es)
    (hsize : source.utf8ByteSize < 4294967295) {e : LexicalError} (he : .error e ∈ es) :
    EndsOn source e.span e.line := h.endsOn hsize he

theorem lineFeeds_token (h : Tiling .start source.toList es) {t : Token} (ht : t ∈ tokensOf es) :
    lineFeeds source t.span.first t.span.last = t.lexeme.toList.count '\n' :=
  (h.holds_lexeme ht).lineFeeds_eq

/-- A line feed is no stray character. -/
theorem lineFeeds_character (h : Tiling .start source.toList es) {line : Nat} {c : Char}
    {span : Span} (he : .error (.unexpectedCharacter line c span) ∈ es) :
    lineFeeds source span.first span.last = 0 := by
  obtain ⟨before, t, after, htext, hat⟩ := h.exists_at he
  have hcount : lineFeeds source span.first span.last = t.count '\n' := by
    rw [← lineFeeds_of_toList htext, ← hat.first_eq, ← hat.last_eq]
    rfl
  have htells := hat.tells
  cases htells with
  | character =>
      rw [hcount, List.count_eq_zero]
      intro hmem
      cases List.mem_singleton.1 hmem
      exact hat.head rfl

end Tiling

theorem LexicalError.line_diagnostic (e : LexicalError) : e.diagnostic.line = e.line := by
  cases e <;> rfl

theorem map_line_diagnosticsOf (es : List Event) :
    (diagnosticsOf es).map Diagnostic.line = (es.filterMap Event.error?).map LexicalError.line := by
  rw [diagnosticsOf, List.map_map]
  exact List.map_congr_left fun e _ => e.line_diagnostic

/-! ## The lines of a scan -/

theorem endsOn_eof {source : String} (h : source.utf8ByteSize < 4294967295) (line : Nat) :
    EndsOn source (Token.eof line (Location.start.after source.toList).offset).span
      (Location.start.after source.toList).line := by
  rw [offset_after_toList]
  have hsource : source.toList = source.toList ++ [] ++ [] := by simp
  have hfirst : (Token.eof line source.utf8ByteSize).span.first = byteSize source.toList := by
    rw [Token.first_eof (Nat.le_of_lt h), byteSize_toList]
  have hlast : (Token.eof line source.utf8ByteSize).span.last = byteSize (source.toList ++ []) := by
    rw [Token.last_eof (Nat.le_of_lt h), List.append_nil, byteSize_toList]
  simpa [Location.after, Location.start] using EndsOn.of_toList h hsource hfirst hlast

/-- The lines of the tokens and of the diagnostics of a scan agree with the line map of the
source. -/
theorem linesAgree_scan (source : String) (h : source.utf8ByteSize < 4294967295) :
    LinesAgree source (scan source) := by
  have htiling := tiling_events (Nat.le_of_lt h)
  refine
    { tokens := ?tokens, diagnostics := ?diagnostics, tokens_spread := ?tokens_spread
      diagnostics_spread := ?diagnostics_spread, tokens_in_order := ?tokens_in_order
      diagnostics_in_order := ?diagnostics_in_order }
  case tokens =>
    rw [tokens_scan]
    intro t ht
    rcases List.mem_append.1 ht with ht | ht
    · exact htiling.endsOn_token h ht
    · cases List.mem_singleton.1 ht
      exact endsOn_eof h _
  case diagnostics =>
    rw [diagnostics_scan]
    intro d hd
    obtain ⟨e, he, rfl⟩ := mem_diagnosticsOf hd
    rw [e.span_diagnostic, e.line_diagnostic]
    exact ⟨e.span, rfl, htiling.endsOn_error h he⟩
  case tokens_spread =>
    rw [tokens_scan]
    intro t ht
    rcases List.mem_append.1 ht with ht | ht
    · rw [(htiling.endsOn_token h ht).lineOf_start_ne, htiling.lineFeeds_token ht,
        List.count_pos_iff]
      exact ⟨fun hmem => ⟨((lexeme_of_mem ht).kind_of_newline_mem hmem).1, hmem⟩, And.right⟩
    · cases List.mem_singleton.1 ht
      have hfits : (Location.start.after source.toList).offset ≤ 4294967295 := by
        rw [offset_after_toList]
        exact Nat.le_of_lt h
      refine (endsOn_eof h _).lineOf_start_ne.trans ?_
      rw [Token.first_eof hfits, Token.last_eof hfits]
      simp [Token.eof]
  case diagnostics_spread =>
    rw [diagnostics_scan]
    intro d hd p hp
    obtain ⟨e, he, rfl⟩ := mem_diagnosticsOf hd
    cases e.span_diagnostic.symm.trans hp
    rw [e.line_diagnostic, (htiling.endsOn_error h he).lineOf_start_ne]
    cases e with
    | unexpectedCharacter line c span =>
        have hnone : lineFeeds source span.first span.last = 0 := htiling.lineFeeds_character he
        simp [LexicalError.span, hnone]
    | unterminatedString line span =>
        exact ⟨fun hpos => ⟨rfl, hpos⟩, And.right⟩
  case tokens_in_order =>
    rw [tokens_scan, List.map_append, List.pairwise_append]
    refine ⟨?_, List.pairwise_singleton .., ?_⟩
    · exact (List.pairwise_map.2 htiling.pairwise_line).sublist (map_tokensOf_sublist Event.line _)
    · intro line hline stop hstop
      obtain ⟨t, ht, rfl⟩ := List.mem_map.1 hline
      cases List.mem_singleton.1 hstop
      exact htiling.line_le_line_after (mem_tokensOf ht)
  case diagnostics_in_order =>
    rw [diagnostics_scan, map_line_diagnosticsOf]
    exact (List.pairwise_map.2 htiling.pairwise_line).sublist (map_errors_sublist Event.line _)

/-- A string over two lines and an unclosed one over two more. -/
theorem linesAgree_scan_strings :
    "\"a\nb\" // c\nd \"e\n".utf8ByteSize < 4294967295 ∧
      LinesAgree "\"a\nb\" // c\nd \"e\n" (scan "\"a\nb\" // c\nd \"e\n") :=
  ⟨by decide, linesAgree_scan _ (by decide)⟩

end LoxLexer
