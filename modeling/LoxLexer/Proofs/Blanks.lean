import LoxLexer.Proofs.Tiling

/-!
# Lexemes and blanks

A blank ends every lexeme but strings and comments, and a line feed ends comments too. So a token
is cut alike with a blank behind it as without (`Longest.append_blank`), and blanks at the end of a
text change nothing (`eventsAt_append_blanks`), unless a string is open there.
-/

namespace LoxLexer

/-! ## Blanks in front -/

theorem eventsAt_blank {c : Char} (hc : c ∈ blanks) (l : Location) (text : List Char) :
    eventsAt l (c :: text) = eventsAt (l.after [c]) text := by
  rw [eventsAt_cons, Cut.first_of_blank hc]
  rfl

theorem eventsAt_blanks {ws : List Char} (hws : ∀ c ∈ ws, c ∈ blanks) (l : Location)
    (text : List Char) : eventsAt l (ws ++ text) = eventsAt (l.after ws) text := by
  induction ws generalizing l with
  | nil => rfl
  | cons c cs ih =>
      rw [List.cons_append, eventsAt_blank (hws c List.mem_cons_self),
        ih (fun d hd => hws d (List.mem_cons_of_mem _ hd)), ← Location.after_append]
      rfl

/-! ## Blanks behind a lexeme -/

theorem Lexeme.longest {p : Piece} (h : Lexeme p) : Longest p p.text :=
  ⟨h, List.prefix_rfl, fun _ _ hfront => hfront.length_le⟩

theorem Lexeme.eventsAt_eq_nil {chars : List Char} (h : Lexeme (.trivia chars)) (l : Location) :
    eventsAt l chars = [] := by
  have hlong : Longest (.trivia chars) (chars ++ []) := by
    rw [List.append_nil]
    exact h.longest
  have hevents := eventsAt_trivia hlong l
  rwa [List.append_nil, eventsAt_nil] at hevents

/-- No token begins with two slashes. -/
theorem Lexeme.not_slashes {kind : Kind} {chars : List Char} {literal : Literal}
    (h : Lexeme (.token kind chars literal)) : ¬['/', '/'] <+: chars := by
  rintro ⟨cs, rfl⟩
  have hcut : (Cut.slash ('/' :: cs)).piece = .token kind ('/' :: '/' :: cs) literal :=
    congrArg Cut.piece (Cut.first_lexeme h rfl)
  exact nomatch hcut

/-- What is longer than the text in front of a character has the character in it. -/
theorem mem_of_front {c : Char} {front text after : List Char} (h : front <+: text ++ c :: after)
    (hlong : ¬front <+: text) : c ∈ front := by
  rcases List.prefix_or_prefix_of_prefix h (List.prefix_append text _) with hfront | htext
  · exact absurd hfront hlong
  · obtain ⟨more, rfl⟩ := htext
    have hmore : more <+: c :: after := (List.prefix_append_right_inj text).1 h
    cases more with
    | nil =>
        rw [List.append_nil] at hlong
        exact absurd List.prefix_rfl hlong
    | cons d ds =>
        cases (List.cons_prefix_cons.1 hmore).1
        simp

theorem Longest.append_blank {p : Piece} {text : List Char} (h : Longest p text) {c : Char}
    (hc : c ∈ blanks) (hp : c = '\n' ∨ ¬['/', '/'] <+: p.text) (after : List Char) :
    Longest p (text ++ c :: after) := by
  -- A longer lexeme would have the blank in it, so it would be a string or a comment, and then `p`
  -- would be one too.
  refine ⟨h.lexeme, h.front.trans (List.prefix_append _ _), fun q hq hfront => ?_⟩
  by_cases hqtext : q.text <+: text
  · exact h.length_le q hq hqtext
  · have hmem := mem_of_front hfront hqtext
    cases text with
    | nil => exact absurd (List.prefix_nil.1 h.front) h.lexeme.text_ne_nil
    | cons d ds =>
        obtain ⟨es, hes, _⟩ := hq.text_of_front hfront
        rcases hq.blank_mem hc hmem with halone | ⟨fs, hquote⟩ | ⟨body, hcomment, hbody⟩
        · cases hes.symm.trans halone
          rw [halone] at hqtext
          exact absurd (List.prefix_append [c] ds) hqtext
        · cases hes.symm.trans hquote
          have heq := h.lexeme.eq_of_quote hq (h.front.trans (List.prefix_append _ _)) hfront
          rw [heq]
        · have hslashes : ['/', '/'] <+: d :: ds := by
            by_contra hshort
            have hcfront := mem_of_front
              ((hcomment ▸ List.prefix_append ['/', '/'] body : ['/', '/'] <+: q.text).trans hfront)
              hshort
            have hfree : '/' ∉ blanks := by decide
            simp only [List.mem_cons, List.not_mem_nil, or_self, or_false] at hcfront
            exact hfree (hcfront ▸ hc)
          rcases hp with rfl | hp
          · rw [hcomment] at hmem
            simp only [List.mem_cons, Char.reduceEq, false_or] at hmem
            exact absurd hmem hbody
          · have hlen := h.length_le _ .slashes hslashes
            exact absurd (List.prefix_of_prefix_length_le hslashes h.front hlen) hp

/-- A string is cut whole, whatever stands behind it. -/
theorem longest_string {body : List Char} (h : '"' ∉ body) (rest : List Char) :
    Longest (.token .string ('"' :: body ++ ['"']) (.text (.ofList body)))
      ('"' :: body ++ ['"'] ++ rest) := by
  refine ⟨.string h, List.prefix_append _ rest, fun q hq hfront => ?_⟩
  rw [hq.eq_of_quote (.string h) hfront (List.prefix_append _ rest)]

/-- A comment is cut whole in front of its line feed. -/
theorem longest_comment {body : List Char} (h : '\n' ∉ body) (rest : List Char) :
    Longest (.trivia ('/' :: '/' :: body)) ('/' :: '/' :: body ++ '\n' :: rest) :=
  (Lexeme.comment h).longest.append_blank (by decide) (.inl rfl) rest

/-- What is longest in front of a text is longest in front of less of it. -/
theorem Longest.of_append {p : Piece} {text more : List Char} (h : Longest p (text ++ more))
    (hfront : p.text <+: text) : Longest p text :=
  ⟨h.lexeme, hfront, fun q hq hqfront =>
    h.length_le q hq (hqfront.trans (List.prefix_append text more))⟩

/-- Behind a token, a blank may stand anywhere. -/
theorem Longest.insert_blank {p : Piece} {front back : List Char}
    (h : Longest p (p.text ++ (front ++ back))) {c : Char} (hc : c ∈ blanks)
    (hp : c = '\n' ∨ ¬['/', '/'] <+: p.text) (after : List Char) :
    Longest p (p.text ++ (front ++ c :: after)) := by
  rw [← List.append_assoc] at h ⊢
  exact (h.of_append (List.prefix_append _ _)).append_blank hc hp after

/-! ## Blanks at the end -/

/-- A blank at the end of a text is a piece of its own, or goes on with the comment there. -/
theorem Longest.append_blank_trivia {chars rest : List Char}
    (h : Longest (.trivia chars) (chars ++ rest)) {c : Char} (hc : c ∈ blanks) :
    Longest (.trivia chars) (chars ++ rest ++ [c]) ∨
      rest = [] ∧ Lexeme (.trivia (chars ++ [c])) := by
  cases h.lexeme with
  | blank _ => exact .inl (h.append_blank hc (.inr (by simp [Piece.text])) [])
  | @comment body hbody =>
      rcases h.comment_end with rfl | ⟨cs, rfl⟩
      · by_cases hnewline : c = '\n'
        · exact .inl (h.append_blank hc (.inl hnewline) [])
        · have hlonger : '\n' ∉ body ++ [c] := by simp [hbody, Ne.symm hnewline]
          exact .inr ⟨rfl, .comment hlonger⟩
      · left
        rw [List.append_assoc]
        exact h.lexeme.longest.append_blank (by decide) (.inl rfl) (cs ++ [c])

theorem eventsAt_append_blank {c : Char} (hc : c ∈ blanks) (l : Location) (text : List Char)
    (h : ∀ e ∈ eventsAt l text, ¬e.Unclosed) : eventsAt l (text ++ [c]) = eventsAt l text := by
  induction text using scan_induction generalizing l with
  | nil => rw [List.nil_append, eventsAt_blank hc, eventsAt_nil, eventsAt_nil]
  | token kind chars literal rest hp ih =>
      have hlong := hp.append_blank hc (.inr hp.lexeme.not_slashes) []
      rw [List.append_assoc] at hlong ⊢
      rw [eventsAt_token hp] at h ⊢
      rw [eventsAt_token hlong, ih _ fun e he => h e (List.mem_cons_of_mem _ he)]
  | trivia chars rest hp ih =>
      rw [eventsAt_trivia hp] at h ⊢
      rcases hp.append_blank_trivia hc with hlong | ⟨rfl, hlexeme⟩
      · rw [List.append_assoc] at hlong ⊢
        rw [eventsAt_trivia hlong, ih _ h]
      · rw [List.append_nil, hlexeme.eventsAt_eq_nil, eventsAt_nil]
  | unclosed cs hq =>
      rw [eventsAt_unclosed hq] at h
      exact absurd .string (h _ List.mem_cons_self)
  | stray d ds hb ih =>
      rw [eventsAt_stray hb] at h ⊢
      rw [List.cons_append, eventsAt_stray hb, ih _ fun e he => h e (List.mem_cons_of_mem _ he)]

theorem eventsAt_append_blanks {ws : List Char} (hws : ∀ c ∈ ws, c ∈ blanks) (l : Location)
    (text : List Char) (h : ∀ e ∈ eventsAt l text, ¬e.Unclosed) :
    eventsAt l (text ++ ws) = eventsAt l text := by
  induction ws generalizing text with
  | nil => rw [List.append_nil]
  | cons c cs ih =>
      have hone := eventsAt_append_blank (hws c List.mem_cons_self) l text h
      rw [List.append_cons, ih (fun d hd => hws d (List.mem_cons_of_mem _ hd)), hone]
      rwa [hone]

end LoxLexer
