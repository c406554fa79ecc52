import LoxLexer.Proofs.Tiling
import Mathlib.Data.List.Nodup

/-!
# Tokens and diagnostics partition the source

The spans of the tokens and of the diagnostics of a scan, sorted by their starts, are separate
stretches of the source. What lies between them is trivia, so every byte of the source is accounted
for.
-/

namespace LoxLexer

/-! ## The stretches of a source -/

/-- The spans of the tokens, without the one that ends the text, and of the diagnostics, sorted by
their starts. -/
def Scan.spans (s : Scan) : List Span :=
  (s.lexemes.map Token.span ++ s.diagnostics.toList.filterMap Diagnostic.span).mergeSort
    fun p q => p.first ≤ q.first

/-- What is left of a stretch before, between and after spans. -/
def gaps (start stop : Nat) : List Span → List (Nat × Nat)
  | [] => [(start, stop)]
  | p :: ps => (start, p.first) :: gaps p.last stop ps

/-- Gaps and spans in turn. -/
def stretches (start stop : Nat) : List Span → List (Nat × Nat)
  | [] => [(start, stop)]
  | p :: ps => (start, p.first) :: (p.first, p.last) :: stretches p.last stop ps

/-- The tokens and the diagnostics account for every byte of the source. -/
structure Partition (source : String) (s : Scan) : Prop where
  spanned : ∀ d ∈ s.diagnostics.toList, d.span.isSome
  nonempty : ∀ p ∈ s.spans, p.first < p.last
  disjoint : s.spans.Pairwise fun p q => p.last ≤ q.first
  within : ∀ p ∈ s.spans, p.last ≤ source.utf8ByteSize
  boundaries : ∀ p ∈ s.spans,
    String.Pos.Raw.IsValid source ⟨p.first⟩ ∧ String.Pos.Raw.IsValid source ⟨p.last⟩
  tokens_in_order : (s.lexemes.map Token.span).Pairwise fun p q => p.last ≤ q.first
  diagnostics_in_order :
    (s.diagnostics.toList.filterMap Diagnostic.span).Pairwise fun p q => p.last ≤ q.first
  lexeme : ∀ t ∈ s.lexemes, Holds source t.span.first t.span.last t.lexeme
  code : ∀ d ∈ s.diagnostics.toList, d.code = 1001 ∨ d.code = 1002
  /-- The span is that of the one character that the message names. -/
  character : ∀ d ∈ s.diagnostics.toList, d.code = 1001 → ∃ p c, d.span = some p ∧
    d.message = "Unexpected character: " ++ String.singleton c ∧
    Holds source p.first p.last (String.singleton c)
  /-- There is one unclosed string at most, it is the last error, and it runs to the end. -/
  unclosed : ∀ d ∈ s.diagnostics.toList, d.code = 1002 → ∃ ds p text,
    s.diagnostics.toList = ds ++ [d] ∧ (∀ e ∈ ds, e.code ≠ 1002) ∧ d.span = some p ∧
    p.last = source.utf8ByteSize ∧ Holds source p.first p.last ("\"" ++ text)
  gap : ∀ g ∈ gaps 0 source.utf8ByteSize s.spans, ∃ text,
    Holds source g.1 g.2 text ∧ Trivia (g.2 = source.utf8ByteSize) text.toList
  rebuilt : ∃ texts,
    List.Forall₂ (fun g text => Holds source g.1 g.2 text)
      (stretches 0 source.utf8ByteSize s.spans) texts ∧
    String.join texts = source
  eof : ∃ t, s.tokens = s.lexemes ++ [t] ∧ t.kind = .eof ∧
    t.span.first = source.utf8ByteSize ∧ t.span.last = source.utf8ByteSize

/-! ## The spans of a scan are those of its events -/

theorem filterMap_span_diagnosticsOf (es : List Event) :
    (diagnosticsOf es).filterMap Diagnostic.span =
      (es.filterMap Event.error?).map LexicalError.span := by
  have hspan : Diagnostic.span ∘ LexicalError.diagnostic = some ∘ LexicalError.span :=
    funext LexicalError.span_diagnostic
  rw [diagnosticsOf, List.filterMap_map, hspan, List.filterMap_eq_map]

theorem perm_spans (es : List Event) :
    ((tokensOf es).map Token.span ++ (diagnosticsOf es).filterMap Diagnostic.span).Perm
      (es.map Event.span) := by
  induction es with
  | nil => exact .nil
  | cons e es ih =>
      cases e with
      | token t => exact ih.cons t.span
      | error e =>
          rw [tokensOf_error, diagnosticsOf_error, List.filterMap_cons_some e.span_diagnostic]
          exact List.perm_middle.trans (ih.cons e.span)

/-- Spans that begin one after the other are sorted already. -/
theorem mergeSort_eq {ps qs : List Span} (hperm : ps.Perm qs)
    (hqs : qs.Pairwise fun p q => p.first < q.first) :
    (ps.mergeSort fun p q => p.first ≤ q.first) = qs := by
  have hsort := (List.mergeSort_perm ps fun p q => p.first ≤ q.first).trans hperm
  have htrans (p q r : Span) (hpq : decide (p.first ≤ q.first) = true)
      (hqr : decide (q.first ≤ r.first) = true) : decide (p.first ≤ r.first) = true := by
    simp only [decide_eq_true_eq] at *
    exact Nat.le_trans hpq hqr
  have htotal (p q : Span) : (decide (p.first ≤ q.first) || decide (q.first ≤ p.first)) = true := by
    simp only [Bool.or_eq_true, decide_eq_true_eq]
    exact Nat.le_total _ _
  have hsorted := (List.pairwise_mergeSort htrans htotal ps).imp of_decide_eq_true
  have hnodup : (qs.map Span.first).Nodup := List.pairwise_map.2 (hqs.imp Nat.ne_of_lt)
  have hantisymm (p q : Span) (hp : p ∈ ps.mergeSort fun p q => p.first ≤ q.first) (hq : q ∈ qs)
      (hpq : p.first ≤ q.first) (hqp : q.first ≤ p.first) : p = q :=
    List.inj_on_of_nodup_map hnodup (hsort.subset hp) hq (Nat.le_antisymm hpq hqp)
  exact hsort.eq_of_pairwise hantisymm hsorted (hqs.imp Nat.le_of_lt)

theorem spans_scan {source : String} (h : Tiling .start source.toList (events source)) :
    (scan source).spans = (events source).map Event.span := by
  rw [Scan.spans, lexemes_scan, diagnostics_scan]
  refine mergeSort_eq (perm_spans _) (List.pairwise_map.2 ?_)
  refine h.pairwise.imp_of_mem fun hd _ hle => ?_
  exact Nat.lt_of_lt_of_le (h.first_lt_last hd) hle

/-! ## Gaps and stretches -/

/-- The gap before an event and the event itself stand next to each other in the source. -/
theorem Event.At.holds {source : String} {l : Location} {before gap text rest : List Char}
    {e : Event} (he : e.At (l.after gap) text rest) (hl : l.offset = byteSize before)
    (hsource : source.toList = before ++ (gap ++ (text ++ rest))) :
    Holds source l.offset e.span.first (.ofList gap) ∧
      Holds source e.span.first e.span.last (.ofList text) ∧
      e.span.last = byteSize (before ++ gap ++ text) ∧
      source.toList = before ++ gap ++ text ++ rest := by
  have hfirst : e.span.first = byteSize (before ++ gap) := by
    rw [he.first, byteSize_append, ← hl]
    rfl
  have hlast : e.span.last = byteSize (before ++ gap ++ text) := by
    rw [he.last, byteSize_append, ← hfirst, he.first]
    rfl
  have hgap : source.toList = before ++ gap ++ (text ++ rest) := by
    rw [hsource, List.append_assoc]
  have htext : source.toList = before ++ gap ++ text ++ rest := by
    rw [hgap, ← List.append_assoc]
  refine ⟨?_, ?_, hlast, htext⟩
  · rw [hl, hfirst]
    exact Holds.of_toList hgap
  · rw [hlast, hfirst]
    exact Holds.of_toList htext

namespace Tiling

variable {source : String} {l : Location} {text : List Char} {es : List Event}

theorem gaps_trivia (h : Tiling l text es) (before : List Char) (hl : l.offset = byteSize before)
    (hsource : source.toList = before ++ text) :
    ∀ g ∈ gaps l.offset source.utf8ByteSize (es.map Event.span), ∃ t,
      Holds source g.1 g.2 t ∧ Trivia (g.2 = source.utf8ByteSize) t.toList := by
  induction h generalizing before with
  | @gap l text htrivia =>
      intro g hg
      cases List.mem_singleton.1 hg
      refine ⟨.ofList text, ?_, ?_⟩
      · rw [hl]
        exact .of_toList_end hsource
      · rw [String.toList_ofList]
        exact htrivia.mono fun _ => rfl
  | @event l gap t rest e es htrivia hat _ ih =>
      obtain ⟨hgap, _, hlast, hrest⟩ := hat.holds hl hsource
      intro g hg
      rcases List.mem_cons.1 hg with rfl | hg
      · refine ⟨.ofList gap, hgap, ?_⟩
        rw [String.toList_ofList]
        exact htrivia.mono False.elim
      · rw [hat.last] at hg hlast
        exact ih _ hlast hrest g hg

theorem stretches_join (h : Tiling l text es) (before : List Char) (hl : l.offset = byteSize before)
    (hsource : source.toList = before ++ text) :
    ∃ texts, List.Forall₂ (fun g t => Holds source g.1 g.2 t)
      (stretches l.offset source.utf8ByteSize (es.map Event.span)) texts ∧
      String.join texts = .ofList text := by
  induction h generalizing before with
  | @gap l text _ =>
      refine ⟨[.ofList text], .cons ?_ .nil, by simp⟩
      rw [hl]
      exact .of_toList_end hsource
  | @event l gap t rest e es _ hat _ ih =>
      obtain ⟨hgap, ht, hlast, hrest⟩ := hat.holds hl hsource
      rw [hat.last] at hlast
      obtain ⟨texts, htexts, hjoin⟩ := ih _ hlast hrest
      refine ⟨.ofList gap :: .ofList t :: texts, .cons hgap (.cons ht ?_), ?_⟩
      · rwa [hat.last]
      · rw [String.join_cons, String.join_cons, hjoin, ← String.ofList_append,
          ← String.ofList_append]

end Tiling

/-! ## What the tokens and the diagnostics of a tiling say -/

namespace LexicalError

variable {e : LexicalError}

theorem code_diagnostic : e.diagnostic.code = 1001 ∨ e.diagnostic.code = 1002 := by
  cases e with
  | unexpectedCharacter line c span => exact .inl rfl
  | unterminatedString line span => exact .inr rfl

theorem eq_unexpectedCharacter (h : e.diagnostic.code = 1001) :
    ∃ line c span, e = .unexpectedCharacter line c span := by
  cases e with
  | unexpectedCharacter line c span => exact ⟨line, c, span, rfl⟩
  | unterminatedString line span => cases h

theorem code_eq_iff : e.diagnostic.code = 1002 ↔ (Event.error e).Unclosed := by
  cases e with
  | unexpectedCharacter line c span => exact ⟨nofun, nofun⟩
  | unterminatedString line span => exact ⟨fun _ => .string, fun _ => rfl⟩

end LexicalError

namespace Tiling

variable {source : String} {es : List Event}

theorem holds_lexeme (h : Tiling .start source.toList es) {t : Token} (ht : t ∈ tokensOf es) :
    Holds source t.span.first t.span.last t.lexeme := by
  obtain ⟨text, htells, hholds⟩ := h.holds (mem_tokensOf ht)
  cases htells with
  | token => simpa [Event.span] using hholds

theorem holds_character (h : Tiling .start source.toList es) {d : Diagnostic}
    (hd : d ∈ diagnosticsOf es) (hcode : d.code = 1001) :
    ∃ p c, d.span = some p ∧ d.message = "Unexpected character: " ++ String.singleton c ∧
      Holds source p.first p.last (String.singleton c) := by
  obtain ⟨e, he, rfl⟩ := mem_diagnosticsOf hd
  obtain ⟨line, c, span, rfl⟩ := LexicalError.eq_unexpectedCharacter hcode
  obtain ⟨text, htells, hholds⟩ := h.holds he
  cases htells with
  | character =>
      rw [LexicalError.diagnostic_unexpectedCharacter]
      refine ⟨span, c, rfl, rfl, ?_⟩
      rwa [String.singleton_eq_ofList]

theorem holds_unclosed (h : Tiling .start source.toList es) {d : Diagnostic}
    (hd : d ∈ diagnosticsOf es) (hcode : d.code = 1002) :
    ∃ p text, d.span = some p ∧ p.last = source.utf8ByteSize ∧
      Holds source p.first p.last ("\"" ++ text) := by
  obtain ⟨e, he, rfl⟩ := mem_diagnosticsOf hd
  have hun := LexicalError.code_eq_iff.1 hcode
  obtain ⟨before, t, after, htext, hat⟩ := h.exists_at he
  cases hat.at_end hun
  have hlast : (Event.error e).span.last = source.utf8ByteSize := by
    rw [hat.last_eq, ← byteSize_toList, htext, List.append_nil]
  obtain ⟨text, htells, hholds⟩ := h.holds he
  cases hun with
  | @string line span =>
      cases htells with
      | @unclosed _ _ cs =>
          refine ⟨span, .ofList cs, rfl, hlast, ?_⟩
          rwa [← List.singleton_append, String.ofList_append] at hholds

theorem unclosed_diagnostic (h : Tiling .start source.toList es) {d : Diagnostic}
    (hd : d ∈ diagnosticsOf es) (hcode : d.code = 1002) :
    ∃ ds, diagnosticsOf es = ds ++ [d] ∧ ∀ e ∈ ds, e.code ≠ 1002 := by
  obtain ⟨e, he, rfl⟩ := mem_diagnosticsOf hd
  obtain ⟨ds, rfl, hds⟩ := h.unclosed_last he (LexicalError.code_eq_iff.1 hcode)
  refine ⟨diagnosticsOf ds, diagnosticsOf_append .., fun f hf hcode => ?_⟩
  obtain ⟨g, hg, rfl⟩ := mem_diagnosticsOf hf
  exact hds _ hg (LexicalError.code_eq_iff.1 hcode)

end Tiling

/-! ## The partition -/

theorem tiling_events {source : String} (h : source.utf8ByteSize ≤ 4294967295) :
    Tiling .start source.toList (events source) :=
  tiling_eventsAt .start source.toList (offset_after_toList source ▸ h)

/-- The tokens and the diagnostics of a scan account for every byte of a source, if its offsets can
be represented. -/
theorem partition_scan (source : String) (h : source.utf8ByteSize ≤ 4294967295) :
    Partition source (scan source) := by
  have htiling := tiling_events h
  have hspans := spans_scan htiling
  have hpairwise : ((events source).map Event.span).Pairwise fun p q => p.last ≤ q.first :=
    List.pairwise_map.2 htiling.pairwise
  refine
    { spanned := ?spanned, nonempty := ?nonempty, disjoint := hspans ▸ hpairwise
      within := ?within, boundaries := ?boundaries, tokens_in_order := ?tokens_in_order
      diagnostics_in_order := ?diagnostics_in_order, lexeme := ?lexeme, code := ?code
      character := ?character, unclosed := ?unclosed, gap := ?gap, rebuilt := ?rebuilt
      eof := ?eof }
  case spanned =>
    intro d hd
    rw [diagnostics_scan] at hd
    obtain ⟨e, _, rfl⟩ := mem_diagnosticsOf hd
    rw [e.span_diagnostic]
    rfl
  case nonempty =>
    rw [hspans]
    intro p hp
    obtain ⟨e, he, rfl⟩ := List.mem_map.1 hp
    exact htiling.first_lt_last he
  case within =>
    rw [hspans]
    intro p hp
    obtain ⟨e, he, rfl⟩ := List.mem_map.1 hp
    obtain ⟨_, _, hholds⟩ := htiling.holds he
    exact hholds.stop_valid.le_utf8ByteSize
  case boundaries =>
    rw [hspans]
    intro p hp
    obtain ⟨e, he, rfl⟩ := List.mem_map.1 hp
    obtain ⟨_, _, hholds⟩ := htiling.holds he
    exact ⟨hholds.start_valid, hholds.stop_valid⟩
  case tokens_in_order =>
    rw [lexemes_scan]
    exact hpairwise.sublist (map_tokensOf_sublist Event.span _)
  case diagnostics_in_order =>
    rw [diagnostics_scan, filterMap_span_diagnosticsOf]
    exact hpairwise.sublist (map_errors_sublist Event.span _)
  case lexeme =>
    rw [lexemes_scan]
    exact fun t ht => htiling.holds_lexeme ht
  case code =>
    rw [diagnostics_scan]
    intro d hd
    obtain ⟨e, _, rfl⟩ := mem_diagnosticsOf hd
    exact e.code_diagnostic
  case character =>
    rw [diagnostics_scan]
    exact fun d hd hcode => htiling.holds_character hd hcode
  case unclosed =>
    rw [diagnostics_scan]
    intro d hd hcode
    obtain ⟨ds, hds, hfree⟩ := htiling.unclosed_diagnostic hd hcode
    obtain ⟨p, text, hspan, hlast, hholds⟩ := htiling.holds_unclosed hd hcode
    exact ⟨ds, p, text, hds, hfree, hspan, hlast, hholds⟩
  case gap =>
    rw [hspans]
    exact htiling.gaps_trivia [] rfl rfl
  case rebuilt =>
    rw [hspans]
    obtain ⟨texts, htexts, hjoin⟩ := htiling.stretches_join [] rfl rfl
    exact ⟨texts, htexts, by rw [hjoin, String.ofList_toList]⟩
  case eof =>
    refine ⟨_, by rw [tokens_scan, lexemes_scan], rfl, ?_, ?_⟩
    · rw [offset_after_toList, Token.first_eof h]
    · rw [offset_after_toList, Token.last_eof h]

/-- A token, a stray character and an unclosed string, with a comment among them. -/
theorem partition_scan_unclosed :
    "n // é\n#\"é".utf8ByteSize ≤ 4294967295 ∧
      Partition "n // é\n#\"é" (scan "n // é\n#\"é") :=
  ⟨by decide, partition_scan _ (by decide)⟩

end LoxLexer
