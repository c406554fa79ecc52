import LoxLexer.Proofs.Blanks
import LoxLexer.Proofs.Shift

/-!
# Scanning line by line

A line feed ends every lexeme but a string. So if no string is left open in front of one, the text
in front of it and the text behind it are scanned as if each stood alone.
-/

namespace LoxLexer

/-! ## Events before and after a line feed -/

theorem eventsAt_append_newline (l : Location) (text after : List Char)
    (h : ∀ e ∈ eventsAt l text, ¬e.Unclosed) :
    eventsAt l (text ++ '\n' :: after) =
      eventsAt l text ++ eventsAt ((l.after text).after ['\n']) after := by
  -- By the pieces of the text in front. Only an unclosed string would go on behind the line feed.
  induction text using scan_induction generalizing l with
  | nil =>
      rw [eventsAt_nil]
      exact eventsAt_blank (by decide) l after
  | token kind chars literal rest hp ih =>
      have hlong := hp.append_blank (by decide) (.inl rfl) after
      rw [List.append_assoc] at hlong ⊢
      rw [eventsAt_token hp] at h ⊢
      have hrest := ih _ fun e he => h e (List.mem_cons_of_mem _ he)
      rw [eventsAt_token hlong, hrest, Location.after_append]
      rfl
  | trivia chars rest hp ih =>
      have hlong := hp.append_blank (by decide) (.inl rfl) after
      rw [List.append_assoc] at hlong ⊢
      rw [eventsAt_trivia hp] at h ⊢
      rw [eventsAt_trivia hlong, ih _ h, Location.after_append]
  | unclosed cs hq =>
      rw [eventsAt_unclosed hq] at h
      exact absurd .string (h _ List.mem_cons_self)
  | stray c cs hb ih =>
      rw [eventsAt_stray hb] at h ⊢
      have hrest := ih _ fun e he => h e (List.mem_cons_of_mem _ he)
      rw [List.cons_append, eventsAt_stray hb, hrest, ← List.singleton_append (l := cs),
        Location.after_append]
      rfl

/-! ## Scans before and after a line feed -/

theorem not_unclosed_of_code_ne {es : List Event} (h : ∀ d ∈ diagnosticsOf es, d.code ≠ 1002)
    {e : Event} (he : e ∈ es) : ¬e.Unclosed := by
  intro hun
  cases hun with
  | string =>
      have herror := List.mem_filterMap.2 ⟨_, he, show Event.error? _ = some _ from rfl⟩
      exact h _ (List.mem_map_of_mem herror) rfl

theorem after_append_newline (a : String) :
    (Location.start.after a.toList).after ['\n'] =
      Location.start.shift (a.utf8ByteSize + 1) (1 + a.toList.count '\n') := by
  simp only [Location.start, Location.after, Location.shift, byteSize_toList, Location.mk.injEq]
  exact ⟨Nat.add_assoc .., Nat.add_assoc .. |>.trans (congrArg _ (Nat.add_comm ..))⟩

theorem events_append_newline {a b : String}
    (hsize : a.utf8ByteSize + 1 + b.utf8ByteSize ≤ 4294967295)
    (hclosed : ∀ d ∈ (scan a).diagnostics.toList, d.code ≠ 1002) :
    events (a ++ "\n" ++ b) = events a ++
      (events b).map (Event.shift (a.utf8ByteSize + 1) (1 + a.toList.count '\n')) := by
  rw [diagnostics_scan] at hclosed
  have htext : (a ++ "\n" ++ b).toList = a.toList ++ '\n' :: b.toList := by simp
  have hfits : (Location.start.after b.toList).offset + (a.utf8ByteSize + 1) ≤ 4294967295 := by
    rw [offset_after_toList]
    omega
  calc
    events (a ++ "\n" ++ b) = eventsAt .start (a.toList ++ '\n' :: b.toList) := by
      rw [← htext]
      rfl
    _ = events a ++ eventsAt ((Location.start.after a.toList).after ['\n']) b.toList :=
      eventsAt_append_newline _ _ _ fun _ he => not_unclosed_of_code_ne hclosed he
    _ = _ := by
      rw [after_append_newline, eventsAt_shift _ _ hfits]
      rfl

/-- If no string is left open in the first text, then two texts with a line feed between them have
the tokens and the diagnostics of both. -/
theorem scan_append_newline (a b : String)
    (hsize : a.utf8ByteSize + 1 + b.utf8ByteSize ≤ 4294967295)
    (hclosed : ∀ d ∈ (scan a).diagnostics.toList, d.code ≠ 1002) :
    (scan (a ++ "\n" ++ b)).tokens = (scan a).tokens.dropLast ++
        (scan b).tokens.map (Token.shift (a.utf8ByteSize + 1) (1 + a.toList.count '\n')) ∧
      (scan (a ++ "\n" ++ b)).diagnostics.toList = (scan a).diagnostics.toList ++
        (scan b).diagnostics.toList.map
          (Diagnostic.shift (a.utf8ByteSize + 1) (1 + a.toList.count '\n')) := by
  have hevents := events_append_newline hsize hclosed
  have hstop : Location.start.after (a ++ "\n" ++ b).toList =
      (Location.start.after b.toList).shift (a.utf8ByteSize + 1) (1 + a.toList.count '\n') := by
    rw [← Location.after_shift, ← after_append_newline, ← Location.after_append,
      ← Location.after_append]
    simp
  constructor
  · have hfits : (Location.start.after b.toList).offset ≤ 4294967295 := by
      rw [offset_after_toList]
      omega
    rw [tokens_scan, tokens_scan, tokens_scan, hevents, tokensOf_append, tokensOf_map_shift,
      List.dropLast_concat, hstop, List.map_append, List.map_singleton, Token.eof_shift hfits,
      List.append_assoc]
    rfl
  · rw [diagnostics_scan, diagnostics_scan, diagnostics_scan, hevents, diagnosticsOf_append,
      diagnosticsOf_map_shift]

/-- A comment and a stray character in the first text, an unclosed string in the second. -/
theorem scan_append_newline_unclosed :
    ("1. # // a".utf8ByteSize + 1 + "\"b".utf8ByteSize ≤ 4294967295 ∧
      ∀ d ∈ (scan "1. # // a").diagnostics.toList, d.code ≠ 1002) ∧
    (scan ("1. # // a" ++ "\n" ++ "\"b")).tokens = (scan "1. # // a").tokens.dropLast ++
        (scan "\"b").tokens.map (Token.shift 10 1) ∧
      (scan ("1. # // a" ++ "\n" ++ "\"b")).diagnostics.toList =
        (scan "1. # // a").diagnostics.toList ++
          (scan "\"b").diagnostics.toList.map (Diagnostic.shift 10 1) := by
  have hclosed : ∀ d ∈ (scan "1. # // a").diagnostics.toList, d.code ≠ 1002 := by decide +kernel
  exact ⟨⟨by decide, hclosed⟩, scan_append_newline _ _ (by decide) hclosed⟩

end LoxLexer
