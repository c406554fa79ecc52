import LoxLexer.Proofs.ScanEvents

/-!
# A scan is the greedy tokenisation

`Greedy` takes the longest lexeme in front of a text again and again, and reports what begins with
no lexeme. It says nothing of cuts, pieces or events. A scan is what it gives, and the only thing it
gives.
-/

namespace LoxLexer

/-- The tokens and the diagnostics of a text that begins at a location. -/
inductive Greedy : Location → List Char → List Token → List Diagnostic → Prop
  | stop {l} : Greedy l [] [.eof l.line l.offset] []
  | token {l kind lexeme literal rest ts ds}
      (h : Longest (.token kind lexeme literal) (lexeme ++ rest))
      (hrest : Greedy (l.after lexeme) rest ts ds) :
      Greedy l (lexeme ++ rest)
        (⟨kind, .ofList lexeme, literal, (l.after lexeme).line, l.spanOf lexeme⟩ :: ts) ds
  | trivia {l lexeme rest ts ds} (h : Longest (.trivia lexeme) (lexeme ++ rest))
      (hrest : Greedy (l.after lexeme) rest ts ds) : Greedy l (lexeme ++ rest) ts ds
  | unclosed {l cs ts ds} (h : NoLexeme ('"' :: cs))
      (hrest : Greedy (l.after ('"' :: cs)) [] ts ds) :
      Greedy l ('"' :: cs) ts
        (⟨(l.after ('"' :: cs)).line, some (l.spanOf ('"' :: cs)), "Unterminated string.", 1002,
          .error⟩ :: ds)
  | stray {l c cs ts ds} (h : NoLexeme (c :: cs)) (hc : c ≠ '"')
      (hrest : Greedy (l.after [c]) cs ts ds) :
      Greedy l (c :: cs) ts
        (⟨(l.after [c]).line, some (l.spanOf [c]),
          "Unexpected character: " ++ String.singleton c, 1001, .error⟩ :: ds)

namespace Greedy

theorem of_events (l : Location) (text : List Char) :
    Greedy l text
      (tokensOf (eventsAt l text) ++ [.eof (l.after text).line (l.after text).offset])
      (diagnosticsOf (eventsAt l text)) := by
  induction text using scan_induction generalizing l with
  | nil => simpa using .stop
  | token kind chars literal rest h ih =>
      rw [eventsAt_token h, Location.after_append]
      exact .token h (ih _)
  | trivia chars rest h ih =>
      rw [eventsAt_trivia h, Location.after_append]
      exact .trivia h (ih _)
  | unclosed cs h =>
      rw [eventsAt_unclosed h, diagnosticsOf_error, LexicalError.diagnostic_unterminatedString]
      exact .unclosed (noLexeme_of_quote h) .stop
  | stray c cs h ih =>
      rw [eventsAt_stray h, diagnosticsOf_error, LexicalError.diagnostic_unexpectedCharacter,
        show c :: cs = [c] ++ cs from rfl, Location.after_append]
      refine .stray (noLexeme_of_not_begins h cs) ?_ (ih _)
      rintro rfl
      exact h (.inr (.inr (.inl rfl)))

theorem cut_unclosed {cs : List Char} (h : NoLexeme ('"' :: cs)) : '"' ∉ cs := by
  intro hmem
  exact h _ (Cut.quoted_of_mem hmem) (Cut.prefix_first '"' cs)

theorem not_begins {c : Char} {cs : List Char} (h : NoLexeme (c :: cs)) (hc : c ≠ '"') :
    ¬Begins c := by
  rcases Cut.first_cases c cs with hlex | ⟨hquote, _⟩ | ⟨hb, _⟩
  · exact absurd (Cut.prefix_first c cs) (h _ hlex)
  · exact absurd hquote hc
  · exact hb

theorem eq_events {l : Location} {text : List Char} {ts : List Token} {ds : List Diagnostic}
    (h : Greedy l text ts ds) :
    ts = tokensOf (eventsAt l text) ++ [.eof (l.after text).line (l.after text).offset] ∧
      ds = diagnosticsOf (eventsAt l text) := by
  induction h with
  | stop => simp
  | token h _ ih =>
      rw [eventsAt_token h, Location.after_append, ih.1, ih.2]
      exact ⟨rfl, rfl⟩
  | trivia h _ ih =>
      rw [eventsAt_trivia h, Location.after_append]
      exact ih
  | unclosed h _ ih =>
      rw [eventsAt_unclosed (cut_unclosed h), diagnosticsOf_error,
        LexicalError.diagnostic_unterminatedString, ih.1, ih.2, eventsAt_nil]
      exact ⟨rfl, rfl⟩
  | @stray l c cs ts ds h hc _ ih =>
      rw [eventsAt_stray (not_begins h hc), diagnosticsOf_error,
        LexicalError.diagnostic_unexpectedCharacter, show c :: cs = [c] ++ cs from rfl,
        Location.after_append, ih.1, ih.2]
      exact ⟨rfl, rfl⟩

end Greedy

theorem Scan.eq_iff {s t : Scan} :
    s = t ↔ s.tokens = t.tokens ∧ s.diagnostics.toList = t.diagnostics.toList := by
  obtain ⟨ts, ⟨ds⟩⟩ := s
  obtain ⟨us, ⟨es⟩⟩ := t
  simp [Collection.toList]

/-- A scan is what the greedy tokenisation of its source gives, and nothing else is. -/
theorem scan_eq_iff_greedy (source : String) (s : Scan) :
    scan source = s ↔ Greedy .start source.toList s.tokens s.diagnostics.toList := by
  rw [Scan.eq_iff, tokens_scan, diagnostics_scan]
  constructor
  · rintro ⟨htokens, hdiagnostics⟩
    rw [← htokens, ← hdiagnostics]
    exact .of_events .start source.toList
  · intro h
    exact ⟨h.eq_events.1.symm, h.eq_events.2.symm⟩

end LoxLexer
