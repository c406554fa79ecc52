import LoxLexer.Proofs.Blanks
import LoxLexer.Proofs.Shift

/-!
# Blanks and comments between tokens

Where a token begins and where it ends a text has a gap: blanks and comments that are put there,
blanks first, change nothing in front of the gap and move what is behind it (`Gap`). They tear no
lexeme apart, and no comment in front of the gap takes them in.
-/

namespace LoxLexer

/-! ## Blanks and comments in front -/

theorem Trivia.eventsAt_append {gap : List Char} (h : Trivia False gap) (l : Location)
    (rest : List Char) : eventsAt l (gap ++ rest) = eventsAt (l.after gap) rest := by
  induction h generalizing l with
  | nil => rfl
  | @blank c cs hc _ ih =>
      rw [List.cons_append, eventsAt_blank hc, ih, ← Location.after_append]
      rfl
  | @comment body cs hbody _ ih =>
      have htext : '/' :: '/' :: body ++ '\n' :: cs ++ rest =
          '/' :: '/' :: body ++ '\n' :: (cs ++ rest) := by simp
      rw [htext, eventsAt_trivia (longest_comment hbody _), eventsAt_blank (by decide), ih,
        ← Location.after_append, ← Location.after_append]
      rfl
  | last _ hend => exact absurd hend not_false

/-! ## Gaps -/

/-- Between the two parts of a text a lexeme ends: both parts are cut alike together and with a
blank in between. -/
structure Gap (front back : List Char) : Prop where
  together : ∀ l, eventsAt l (front ++ back) = eventsAt l front ++ eventsAt (l.after front) back
  apart : ∀ l, ∀ c ∈ blanks, ∀ rest, eventsAt l (front ++ c :: rest) =
    eventsAt l front ++ eventsAt (l.after front) (c :: rest)

namespace Gap

variable {front back : List Char}

theorem nil (back : List Char) : Gap [] back := by
  refine ⟨fun l => ?_, fun l c _ rest => ?_⟩
  all_goals
    rw [eventsAt_nil]
    rfl

theorem longest {p : Piece} (h : Longest p (p.text ++ (front ++ back)))
    (hp : ¬['/', '/'] <+: p.text ∨ front.head? = some '\n') (hgap : Gap front back) :
    Gap (p.text ++ front) back := by
  have hfront : Longest p (p.text ++ front) := by
    rw [← List.append_assoc] at h
    exact h.of_append (List.prefix_append _ _)
  refine ⟨fun l => ?_, fun l c hc rest => ?_⟩
  · rw [List.append_assoc, eventsAt_longest h, eventsAt_longest hfront, hgap.together,
      Location.after_append, List.append_assoc]
  · have hblank : Longest p (p.text ++ (front ++ c :: rest)) := by
      rcases hp with hp | hhead
      · exact h.insert_blank hc (.inr hp) rest
      · obtain ⟨cs, rfl⟩ := List.head?_eq_some_iff.1 hhead
        have hnone : Longest p (p.text ++ ([] ++ ('\n' :: cs ++ back))) := h
        exact hnone.insert_blank (by decide) (.inl rfl) (cs ++ c :: rest)
    rw [List.append_assoc, eventsAt_longest hblank, eventsAt_longest hfront, hgap.apart _ c hc rest,
      Location.after_append, List.append_assoc]

theorem token {kind : Kind} {chars : List Char} {literal : Literal}
    (h : Longest (.token kind chars literal) (chars ++ (front ++ back))) (hgap : Gap front back) :
    Gap (chars ++ front) back := longest h (.inl h.lexeme.not_slashes) hgap

/-- A comment takes in what follows, unless that is its line feed. -/
theorem trivia {chars : List Char} (h : Longest (.trivia chars) (chars ++ (front ++ back)))
    (hline : (front ++ back).head? = some '\n' → front.head? = some '\n')
    (hne : front ++ back ≠ []) (hgap : Gap front back) : Gap (chars ++ front) back := by
  refine longest h ?_ hgap
  cases h.lexeme with
  | blank hc =>
      left
      rw [Piece.text]
      exact fun hslashes => absurd hslashes.length_le (by simp)
  | comment hbody =>
      right
      rcases h.comment_end with hnil | ⟨cs, hcs⟩
      · exact absurd hnil hne
      · exact hline (by rw [hcs]; rfl)

theorem stray {c : Char} (h : ¬Begins c) (hgap : Gap front back) : Gap (c :: front) back := by
  refine ⟨fun l => ?_, fun l d hd rest => ?_⟩
  · rw [List.cons_append, eventsAt_stray h, eventsAt_stray h, hgap.together,
      ← Location.after_append]
    rfl
  · rw [List.cons_append, eventsAt_stray h, eventsAt_stray h, hgap.apart _ d hd rest,
      ← Location.after_append]
    rfl

end Gap

theorem Lexeme.head?_append {p : Piece} (h : Lexeme p) (rest : List Char) :
    (p.text ++ rest).head? = p.text.head? := by
  cases htext : p.text with
  | nil => exact absurd htext h.text_ne_nil
  | cons c cs => rfl

/-- A token begins at a gap and ends at one. -/
theorem exists_gap {l : Location} {text : List Char} (hsize : (l.after text).offset ≤ 4294967295)
    {t : Token} (ht : t ∈ tokensOf (eventsAt l text)) {offset : Nat}
    (hoffset : offset = t.span.first ∨ offset = t.span.last) :
    ∃ front back, text = front ++ back ∧ (l.after front).offset = offset ∧ Gap front back ∧
      (text.head? = some '\n' → front.head? = some '\n') := by
  -- By the pieces in front of the token. A comment among them keeps its line feed, so the last part
  -- says that no gap stands between the two.
  induction text using scan_induction generalizing l with
  | nil => simp at ht
  | token kind chars literal rest hp ih =>
      have hhead (more : List Char) : (chars ++ more).head? = chars.head? :=
        hp.lexeme.head?_append more
      rw [Location.after_append] at hsize
      rw [eventsAt_token hp, tokensOf_token] at ht
      rcases List.mem_cons.1 ht with rfl | ht
      · have hchars := Nat.le_trans ((l.after chars).offset_le_offset_after rest) hsize
        rcases hoffset with rfl | rfl
        · refine ⟨[], chars ++ rest, rfl, (Location.first_spanOf hchars).symm, .nil _, fun h => ?_⟩
          exact absurd ((hhead rest).symm.trans h) hp.lexeme.head_ne_newline
        · refine ⟨chars ++ [], rest, by simp, ?_, .token hp (.nil rest), fun h => ?_⟩
          · rw [List.append_nil]
            exact (Location.last_spanOf hchars).symm
          · rw [hhead] at h ⊢
            exact h
      · obtain ⟨front, back, rfl, hfront, hgap, _⟩ := ih hsize ht
        refine ⟨chars ++ front, back, by simp, ?_, .token hp hgap, fun h => ?_⟩
        · rw [Location.after_append, hfront]
        · rw [hhead] at h ⊢
          exact h
  | trivia chars rest hp ih =>
      have hhead (more : List Char) : (chars ++ more).head? = chars.head? :=
        hp.lexeme.head?_append more
      rw [Location.after_append] at hsize
      rw [eventsAt_trivia hp] at ht
      obtain ⟨front, back, rfl, hfront, hgap, hline⟩ := ih hsize ht
      have hne : front ++ back ≠ [] := by
        intro hnil
        simp [hnil] at ht
      refine ⟨chars ++ front, back, by simp, ?_, .trivia hp hline hne hgap, fun h => ?_⟩
      · rw [Location.after_append, hfront]
      · rw [hhead] at h ⊢
        exact h
  | unclosed cs hq => simp [eventsAt_unclosed hq] at ht
  | stray c cs hb ih =>
      rw [← List.singleton_append, Location.after_append] at hsize
      rw [eventsAt_stray hb, tokensOf_error] at ht
      obtain ⟨front, back, rfl, hfront, hgap, _⟩ := ih hsize ht
      refine ⟨c :: front, back, rfl, ?_, .stray hb hgap, id⟩
      rw [← List.singleton_append, Location.after_append, hfront]

/-! ## What stands behind an offset, further on -/

def Token.shiftFrom (offset bytes lines : Nat) (t : Token) : Token :=
  if offset ≤ t.span.first then t.shift bytes lines else t

def Diagnostic.shiftFrom (offset bytes lines : Nat) (d : Diagnostic) : Diagnostic :=
  if d.span.any (offset ≤ ·.first) then d.shift bytes lines else d

def LexicalError.shiftFrom (offset bytes lines : Nat) (e : LexicalError) : LexicalError :=
  if offset ≤ e.span.first then e.shift bytes lines else e

def Event.shiftFrom (offset bytes lines : Nat) : Event → Event
  | .token t => .token (t.shiftFrom offset bytes lines)
  | .error e => .error (e.shiftFrom offset bytes lines)

section

variable {offset bytes lines : Nat}

theorem Event.shiftFrom_of_le {e : Event} (h : offset ≤ e.span.first) :
    e.shiftFrom offset bytes lines = e.shift bytes lines := by
  cases e with
  | token t => exact congrArg Event.token (if_pos h)
  | error e => exact congrArg Event.error (if_pos h)

theorem Event.shiftFrom_of_lt {e : Event} (h : e.span.first < offset) :
    e.shiftFrom offset bytes lines = e := by
  cases e with
  | token t => exact congrArg Event.token (if_neg (Nat.not_le.2 h))
  | error e => exact congrArg Event.error (if_neg (Nat.not_le.2 h))

theorem LexicalError.diagnostic_shiftFrom (e : LexicalError) :
    (e.shiftFrom offset bytes lines).diagnostic = e.diagnostic.shiftFrom offset bytes lines := by
  by_cases h : offset ≤ e.span.first
  · rw [shiftFrom, if_pos h, Diagnostic.shiftFrom, e.span_diagnostic, Option.any_some,
      if_pos (decide_eq_true h), e.diagnostic_shift]
  · rw [shiftFrom, if_neg h, Diagnostic.shiftFrom, e.span_diagnostic, Option.any_some,
      if_neg (h ∘ of_decide_eq_true)]

theorem tokensOf_map_shiftFrom (es : List Event) :
    tokensOf (es.map (Event.shiftFrom offset bytes lines)) =
      (tokensOf es).map (Token.shiftFrom offset bytes lines) := by
  induction es with
  | nil => rfl
  | cons e es ih =>
      cases e with
      | token t => exact congrArg (t.shiftFrom offset bytes lines :: ·) ih
      | error e => exact ih

theorem diagnosticsOf_map_shiftFrom (es : List Event) :
    diagnosticsOf (es.map (Event.shiftFrom offset bytes lines)) =
      (diagnosticsOf es).map (Diagnostic.shiftFrom offset bytes lines) := by
  induction es with
  | nil => rfl
  | cons e es ih =>
      cases e with
      | token t => exact ih
      | error e =>
          rw [List.map_cons, Event.shiftFrom, diagnosticsOf_error, diagnosticsOf_error,
            List.map_cons, e.diagnostic_shiftFrom, ih]

end

/-- Blanks and comments in a gap change nothing in front of it and move what is behind it. -/
theorem Gap.eventsAt_insert {front back gap : List Char} (h : Gap front back)
    (hgap : Trivia False gap) {c : Char} (hc : c ∈ blanks) (hhead : gap.head? = some c)
    (l : Location) (hsize : (l.after (front ++ back)).offset + byteSize gap ≤ 4294967295) :
    eventsAt l (front ++ (gap ++ back)) = (eventsAt l (front ++ back)).map
      (Event.shiftFrom (l.after front).offset (byteSize gap) (gap.count '\n')) := by
  rw [Location.after_append] at hsize
  have hback := Nat.le_trans (Nat.le_add_right _ _) hsize
  have hfront := Nat.le_trans (Location.offset_le_offset_after _ back) hback
  have hkept : (eventsAt l front).map
      (Event.shiftFrom (l.after front).offset (byteSize gap) (gap.count '\n')) =
        eventsAt l front := by
    refine (List.map_congr_left (g := id) fun e he => Event.shiftFrom_of_lt ?_).trans
      (List.map_id _)
    have htiling := tiling_eventsAt l front hfront
    exact Nat.lt_of_lt_of_le (htiling.first_lt_last he) (htiling.last_le_offset_after he)
  have hmoved : (eventsAt (l.after front) back).map
      (Event.shiftFrom (l.after front).offset (byteSize gap) (gap.count '\n')) =
        eventsAt ((l.after front).after gap) back := by
    refine (List.map_congr_left fun e he => Event.shiftFrom_of_le ?_).trans
      (eventsAt_shift (l.after front) back hsize).symm
    exact (tiling_eventsAt _ back hback).offset_le_first he
  obtain ⟨cs, rfl⟩ := List.head?_eq_some_iff.1 hhead
  rw [h.together, List.map_append, hkept, hmoved, List.cons_append, h.apart l c hc,
    ← List.cons_append, hgap.eventsAt_append]

/-! ## Scans with more between tokens -/

/-- The span stands in front of the offset, or it stands behind it and keeps its length when it is
moved. -/
def Span.Beside (offset bytes : Nat) (p : Span) : Prop :=
  p.last ≤ offset ∧ p.first < offset ∨
    offset ≤ p.first ∧ (p.shift bytes).first = p.first + bytes ∧
      (p.shift bytes).last = p.last + bytes

theorem Span.beside_of_le {offset bytes : Nat} {p : Span} (h : offset ≤ p.first)
    (hfits : p.last + bytes ≤ 4294967295) : p.Beside offset bytes := by
  have hfirst : (p.shift bytes).first = p.first + bytes := by
    rw [first, shift, Position.toNat_ofOffset]
    simp only [first, last] at hfits ⊢
    omega
  refine .inr ⟨h, hfirst, ?_⟩
  have hlast : (p.shift bytes).last = (p.shift bytes).first + p.length.toNat := rfl
  rw [hlast, hfirst, Nat.add_right_comm]
  rfl

/-- One scan has what the other has, but from an offset on it stands some bytes and lines further
on. Nothing stands across the offset. -/
structure MovedFrom (offset bytes lines : Nat) (s s' : Scan) : Prop where
  tokens : s'.tokens = s.tokens.map (Token.shiftFrom offset bytes lines)
  diagnostics : s'.diagnostics.toList =
    s.diagnostics.toList.map (Diagnostic.shiftFrom offset bytes lines)
  same_tokens : s'.tokens.map (fun t => (t.kind, t.lexeme, t.literal)) =
    s.tokens.map fun t => (t.kind, t.lexeme, t.literal)
  same_diagnostics : s'.diagnostics.toList.map (fun d => (d.code, d.message)) =
    s.diagnostics.toList.map fun d => (d.code, d.message)
  tokens_beside : ∀ t ∈ s.tokens, t.span.Beside offset bytes
  diagnostics_beside : ∀ d ∈ s.diagnostics.toList, ∃ p, d.span = some p ∧ p.Beside offset bytes

theorem Gap.beside {front back : List Char} (h : Gap front back) {l : Location} {bytes : Nat}
    (hsize : (l.after (front ++ back)).offset + bytes ≤ 4294967295) {e : Event}
    (he : e ∈ eventsAt l (front ++ back)) : e.span.Beside (l.after front).offset bytes := by
  rw [Location.after_append] at hsize
  have hback := Nat.le_trans (Nat.le_add_right _ _) hsize
  have hfront := Nat.le_trans (Location.offset_le_offset_after _ back) hback
  rw [h.together] at he
  rcases List.mem_append.1 he with he | he
  · have htiling := tiling_eventsAt l front hfront
    have hlast := htiling.last_le_offset_after he
    exact .inl ⟨hlast, Nat.lt_of_lt_of_le (htiling.first_lt_last he) hlast⟩
  · have htiling := tiling_eventsAt (l.after front) back hback
    refine Span.beside_of_le (htiling.offset_le_first he) ?_
    exact Nat.le_trans (Nat.add_le_add_right (htiling.last_le_offset_after he) bytes) hsize

theorem movedFrom_scan {source source' : String} {offset bytes lines : Nat}
    (hevents : events source' = (events source).map (Event.shiftFrom offset bytes lines))
    (hstop : Location.start.after source'.toList =
      (Location.start.after source.toList).shift bytes lines)
    (hoffset : offset ≤ source.utf8ByteSize) (hsize : source.utf8ByteSize + bytes ≤ 4294967295)
    (hbeside : ∀ e ∈ events source, e.span.Beside offset bytes) :
    MovedFrom offset bytes lines (scan source) (scan source') := by
  have hfits := Nat.le_trans (Nat.le_add_right source.utf8ByteSize bytes) hsize
  have hfirst : offset ≤ (Token.eof (Location.start.after source.toList).line
      source.utf8ByteSize).span.first := by
    rwa [Token.first_eof hfits]
  have htokens : (scan source').tokens =
      (scan source).tokens.map (Token.shiftFrom offset bytes lines) := by
    rw [tokens_scan, tokens_scan, hevents, tokensOf_map_shiftFrom, hstop, List.map_append,
      List.map_singleton, offset_after_toList, Token.shiftFrom, if_pos hfirst,
      Token.eof_shift hfits]
    rw [Location.shift, offset_after_toList]
  have hdiagnostics : (scan source').diagnostics.toList =
      (scan source).diagnostics.toList.map (Diagnostic.shiftFrom offset bytes lines) := by
    rw [diagnostics_scan, diagnostics_scan, hevents, diagnosticsOf_map_shiftFrom]
  refine ⟨htokens, hdiagnostics, ?_, ?_, fun t ht => ?_, fun d hd => ?_⟩
  · rw [htokens, List.map_map]
    refine List.map_congr_left fun t _ => ?_
    rw [Function.comp, Token.shiftFrom]
    split <;> rfl
  · rw [hdiagnostics, List.map_map]
    refine List.map_congr_left fun d _ => ?_
    rw [Function.comp, Diagnostic.shiftFrom]
    split <;> rfl
  · rw [tokens_scan, offset_after_toList] at ht
    rcases List.mem_append.1 ht with ht | ht
    · exact hbeside _ (mem_tokensOf ht)
    · cases List.mem_singleton.1 ht
      refine Span.beside_of_le hfirst ?_
      rwa [Token.last_eof hfits]
  · rw [diagnostics_scan] at hd
    obtain ⟨e, he, rfl⟩ := mem_diagnosticsOf hd
    exact ⟨e.span, e.span_diagnostic, hbeside _ he⟩

/-- Blanks and comments, blanks first, can be put where a token begins or ends. -/
theorem scan_insert {source gap : String} {t : Token} {offset : Nat} {c : Char}
    (ht : t ∈ (scan source).lexemes) (hoffset : offset = t.span.first ∨ offset = t.span.last)
    (hgap : Trivia False gap.toList) (hc : c ∈ blanks) (hhead : gap.toList.head? = some c)
    (hsize : source.utf8ByteSize + gap.utf8ByteSize ≤ 4294967295) :
    ∃ front back, source = front ++ back ∧ front.utf8ByteSize = offset ∧
      MovedFrom offset gap.utf8ByteSize (gap.toList.count '\n') (scan source)
        (scan (front ++ gap ++ back)) := by
  rw [← offset_after_toList] at hsize
  have hfits := Nat.le_trans (Nat.le_add_right _ _) hsize
  rw [lexemes_scan] at ht
  obtain ⟨front, back, htext, rfl, hparts, _⟩ := exists_gap hfits ht hoffset
  have hfront : (String.ofList front).utf8ByteSize = (Location.start.after front).offset := by
    rw [utf8ByteSize_ofList]
    exact (Nat.zero_add _).symm
  have htext' : (String.ofList front ++ gap ++ String.ofList back).toList =
      front ++ (gap.toList ++ back) := by simp
  refine ⟨.ofList front, .ofList back, ?_, hfront,
    movedFrom_scan ?_ ?_ ?_ (by rwa [offset_after_toList] at hsize) ?_⟩
  · rw [← String.ofList_append, ← htext, String.ofList_toList]
  · rw [htext, ← byteSize_toList gap] at hsize
    have hevents := hparts.eventsAt_insert hgap hc hhead .start hsize
    rw [← htext', ← htext, byteSize_toList] at hevents
    exact hevents
  · rw [htext', htext]
    simp only [Location.after, Location.shift, byteSize_append, byteSize_toList, List.count_append,
      Location.mk.injEq]
    omega
  · rw [← offset_after_toList, htext, Location.after_append]
    exact Location.offset_le_offset_after _ back
  · rw [htext] at hsize
    intro e he
    have he : e ∈ eventsAt .start (front ++ back) := htext ▸ he
    exact hparts.beside hsize he

/-- Between two tokens that touch each other, with a stray character and an open string behind. -/
theorem scan_insert_touching :
    ((scan "a.b#\"c").lexemes[1]? = some ⟨.dot, ".", .absent, 1, ⟨1, 1⟩⟩ ∧
      Trivia False "\t\n// \"é/\n ".toList) ∧
    ∃ front back, "a.b#\"c" = front ++ back ∧ front.utf8ByteSize = 2 ∧
      MovedFrom 2 11 2 (scan "a.b#\"c") (scan (front ++ "\t\n// \"é/\n " ++ back)) := by
  have hdot : (scan "a.b#\"c").lexemes[1]? = some ⟨.dot, ".", .absent, 1, ⟨1, 1⟩⟩ := by
    decide +kernel
  have hcomment : Trivia False "// \"é/\n ".toList :=
    @Trivia.comment False [' ', '"', 'é', '/'] [' '] (by decide) (.blank (by decide) .nil)
  have hgap : Trivia False "\t\n// \"é/\n ".toList :=
    .blank (by decide) (.blank (by decide) hcomment)
  exact ⟨⟨hdot, hgap⟩, scan_insert (c := '\t') (List.mem_of_getElem? hdot) (.inr rfl) hgap
    (by decide) (by decide) (by decide)⟩

end LoxLexer
