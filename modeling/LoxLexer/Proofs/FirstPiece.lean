import LoxLexer.Proofs.Grammar
import LoxLexer.Scan.Cut
import Mathlib.Data.List.TakeWhile

/-!
# The first piece is the longest lexeme

Cutting looks at a few characters in front and at runs of characters. The piece it finds is the
longest lexeme in front of the text (`Cut.first_spec`), and whatever is the longest lexeme in front
of a text is cut from it (`Longest.first_eq`). Where there is none, the text is an unclosed string
or begins with a character that begins nothing.
-/

namespace LoxLexer

/-! ## Words -/

namespace Kind

theorem ofWord_spelling (word : Keyword) : ofWord word.spelling = .keyword word := by
  cases word <;> decide

theorem ofWord_eq_identifier {text : String} (h : ∀ word : Keyword, word.spelling ≠ text) :
    ofWord text = .identifier := by
  have hnone : Keyword.ofSpelling? text = none := by
    rw [Keyword.ofSpelling?, List.find?_eq_none]
    intro word _
    simpa using h word
  rw [ofWord, hnone]

end Kind

/-- A run of word characters that begins with a letter is a lexeme, reserved or not. -/
theorem Lexeme.word {c : Char} {cs : List Char} (hc : IsLetter c)
    (hcs : ∀ d ∈ cs, IsLetter d ∨ IsDigit d) :
    Lexeme (.token (.ofWord (.ofList (c :: cs))) (c :: cs) .absent) := by
  by_cases h : ∃ word : Keyword, word.spelling.toList = c :: cs
  · obtain ⟨word, h⟩ := h
    rw [← h, String.ofList_toList, Kind.ofWord_spelling]
    exact .reserved word
  · have hfree : ∀ word : Keyword, word.spelling.toList ≠ c :: cs := fun word hw => h ⟨word, hw⟩
    rw [Kind.ofWord_eq_identifier]
    · exact .identifier hc hcs hfree
    · intro word hw
      exact hfree word (by rw [hw, String.toList_ofList])

/-! ## Which cut is made -/

namespace Cut

theorem ofMark?_eq_none {c : Char} (h : c ∉ marks.map Prod.fst) : Kind.ofMark? c = none := by
  unfold Kind.ofMark?
  split <;> first | rfl | exact absurd (by decide) h

theorem first_of_not_mark {c : Char} (hm : c ∉ marks.map Prod.fst) (hq : c ≠ '"')
    (cs : List Char) :
    first c cs =
      if isBlank c then ⟨.trivia [c], cs⟩
      else if c.isDigit then number c cs
      else if isWordStart c then word c cs
      else ⟨.stray c, cs⟩ := by
  unfold first
  split
  case h_7 => rw [ofMark?_eq_none hm]
  case h_6 => exact absurd rfl hq
  all_goals exact absurd (by decide) hm

theorem first_of_blank {c : Char} (h : c ∈ blanks) (cs : List Char) :
    first c cs = ⟨.trivia [c], cs⟩ := by
  have hm : ∀ d ∈ blanks, d ∉ marks.map Prod.fst ∧ d ≠ '"' :=
    List.all_iff_forall_prop.1 (by decide)
  rw [first_of_not_mark (hm c h).1 (hm c h).2, if_pos (isBlank_iff.2 h)]

theorem first_of_digit {c : Char} (h : IsDigit c) (cs : List Char) :
    first c cs = number c cs := by
  obtain ⟨hq, hb, hm⟩ := not_special_iff.1 h.not_special
  rw [first_of_not_mark hm hq, if_neg (hb ∘ isBlank_iff.1), if_pos (isDigit_iff.2 h)]

theorem first_of_letter {c : Char} (h : IsLetter c) (cs : List Char) :
    first c cs = word c cs := by
  obtain ⟨hq, hb, hm⟩ := not_special_iff.1 h.not_special
  rw [first_of_not_mark hm hq, if_neg (hb ∘ isBlank_iff.1), if_neg (h.not_digit ∘ isDigit_iff.1),
    if_pos (isWordStart_iff.2 h)]

theorem first_of_not_begins {c : Char} (h : ¬Begins c) (cs : List Char) :
    first c cs = ⟨.stray c, cs⟩ := by
  simp only [Begins, not_or] at h
  obtain ⟨hb, hm, hq, hl, hd⟩ := h
  rw [first_of_not_mark hm hq, if_neg (hb ∘ isBlank_iff.1), if_neg (hd ∘ isDigit_iff.1),
    if_neg (hl ∘ isWordStart_iff.1)]

/-! ## The first piece is a lexeme -/

theorem lexeme_operator {single double : Kind} {c : Char} (hs : (c, single) ∈ marks)
    (hd : (c, double) ∈ pairs) (cs : List Char) : Lexeme (operator single double c cs).piece := by
  unfold operator
  split
  · exact .pair hd
  · exact .mark hs

theorem not_mem_takeWhile_ne (c : Char) (cs : List Char) : c ∉ cs.takeWhile (· != c) := fun h => by
  simpa using List.mem_takeWhile_imp h

theorem lexeme_slash (cs : List Char) : Lexeme (slash cs).piece := by
  unfold slash
  split
  · exact .comment (not_mem_takeWhile_ne _ _)
  · exact .mark (by decide)

theorem quoted_of_mem {cs : List Char} (h : '"' ∈ cs) : Lexeme (quoted cs).piece := by
  unfold quoted
  split
  · rename_i heq
    rw [List.dropWhile_eq_nil_iff] at heq
    exact absurd (heq _ h) (by decide)
  · rename_i quote rest heq
    have hquote := List.head?_dropWhile_not (· != '"') cs
    simp only [heq, List.head?_cons, bne_eq_false_iff_eq] at hquote
    rw [hquote]
    exact .string (not_mem_takeWhile_ne _ _)

theorem quoted_of_not_mem {cs : List Char} (h : '"' ∉ cs) :
    quoted cs = ⟨.unclosed ('"' :: cs), []⟩ := by
  have hall : ∀ c ∈ cs, (c != '"') = true := fun c hc =>
    bne_iff_ne.2 (ne_of_mem_of_not_mem hc h)
  rw [quoted, List.dropWhile_eq_nil_iff.2 hall, List.takeWhile_eq_self_iff.2 hall]

theorem digit_of_mem_takeWhile {cs : List Char} {c : Char} (h : c ∈ cs.takeWhile Char.isDigit) :
    IsDigit c := isDigit_iff.1 (List.mem_takeWhile_imp h)

theorem lexeme_number {c : Char} (hc : IsDigit c) (cs : List Char) :
    Lexeme (number c cs).piece := by
  have hwhole : ∀ d ∈ c :: cs.takeWhile Char.isDigit, IsDigit d := fun d hd => by
    rcases List.mem_cons.1 hd with rfl | hd
    · exact hc
    · exact digit_of_mem_takeWhile hd
  unfold number
  split
  · rename_i d rest _
    split
    · rename_i hd
      refine .number (List.cons_ne_nil _ _) fun e he => ?_
      rcases List.mem_append.1 he with he | he
      · exact hwhole e he
      · rcases List.mem_cons.1 he with rfl | he
        · exact isDigit_iff.1 hd
        · exact digit_of_mem_takeWhile he
    · exact .number (List.cons_ne_nil _ _) (by simpa using hwhole)
  · exact .number (List.cons_ne_nil _ _) (by simpa using hwhole)

theorem lexeme_word {c : Char} (hc : IsLetter c) (cs : List Char) : Lexeme (word c cs).piece :=
  .word hc fun _ hd => isWordPart_iff.1 (List.mem_takeWhile_imp hd)

theorem lexeme_first_of_mark {c : Char} (h : c ∈ marks.map Prod.fst) (cs : List Char) :
    Lexeme (first c cs).piece := by
  simp only [marks, List.map_cons, List.map_nil, List.mem_cons, List.not_mem_nil, or_false] at h
  rcases h with rfl | rfl | rfl | rfl | rfl | rfl | rfl | rfl | rfl | rfl | rfl | rfl | rfl | rfl |
    rfl
  all_goals first
    | exact .mark (by decide)
    | exact lexeme_slash cs
    | exact lexeme_operator (by decide) (by decide) cs

/-- The first piece is a lexeme, unless it is an unclosed string or a character that begins
nothing. -/
theorem first_cases (c : Char) (cs : List Char) :
    Lexeme (first c cs).piece ∨
      (c = '"' ∧ '"' ∉ cs ∧ first c cs = ⟨.unclosed (c :: cs), []⟩) ∨
      (¬Begins c ∧ first c cs = ⟨.stray c, cs⟩) := by
  by_cases h : Begins c
  · rcases h with h | h | rfl | h | h
    · rw [first_of_blank h]; exact .inl (.blank h)
    · exact .inl (lexeme_first_of_mark h cs)
    · by_cases hq : '"' ∈ cs
      · exact .inl (quoted_of_mem hq)
      · exact .inr (.inl ⟨rfl, hq, quoted_of_not_mem hq⟩)
    · rw [first_of_letter h]; exact .inl (lexeme_word h cs)
    · rw [first_of_digit h]; exact .inl (lexeme_number h cs)
  · exact .inr (.inr ⟨h, first_of_not_begins h cs⟩)

/-! ## A lexeme alone is cut whole -/

theorem number_text (whole fraction : List Char) (c : Char)
    (h : ∀ d ∈ c :: whole ++ fraction, IsDigit d) :
    number c (Numeral.text ⟨whole, fraction⟩) = ofNumeral ⟨c :: whole, fraction⟩ [] := by
  have hw : ∀ d ∈ whole, d.isDigit = true := fun d hd => isDigit_iff.2 (h d (by simp [hd]))
  cases fraction with
  | nil =>
      simp only [number, Numeral.text, List.takeWhile_eq_self_iff.2 hw,
        List.dropWhile_eq_nil_iff.2 hw]
  | cons e es =>
      have he : e.isDigit = true := isDigit_iff.2 (h e (by simp))
      have hes : ∀ d ∈ es, d.isDigit = true := fun d hd => isDigit_iff.2 (h d (by simp [hd]))
      simp [number, Numeral.text, List.takeWhile_append_of_pos hw, List.dropWhile_append_of_pos hw,
        show '.'.isDigit = false from rfl, he, List.takeWhile_eq_self_iff.2 hes,
        List.dropWhile_eq_nil_iff.2 hes]

theorem word_text {c : Char} {cs : List Char} (h : ∀ d ∈ cs, IsLetter d ∨ IsDigit d) :
    word c cs = ⟨.token (.ofWord (.ofList (c :: cs))) (c :: cs) .absent, []⟩ := by
  have hcs : ∀ d ∈ cs, isWordPart d = true := fun d hd => isWordPart_iff.2 (h d hd)
  rw [word, List.takeWhile_eq_self_iff.2 hcs, List.dropWhile_eq_nil_iff.2 hcs]

theorem quoted_text {body : List Char} (h : '"' ∉ body) (rest : List Char) :
    quoted (body ++ '"' :: rest) =
      ⟨.token .string ('"' :: body ++ ['"']) (.text (.ofList body)), rest⟩ := by
  have hbody : ∀ d ∈ body, (d != '"') = true := fun d hd =>
    bne_iff_ne.2 (ne_of_mem_of_not_mem hd h)
  simp [quoted, List.takeWhile_append_of_pos hbody, List.dropWhile_append_of_pos hbody]

theorem slash_text {body : List Char} (h : '\n' ∉ body) :
    slash ('/' :: body) = ⟨.trivia ('/' :: '/' :: body), []⟩ := by
  have hbody : ∀ d ∈ body, (d != '\n') = true := fun d hd =>
    bne_iff_ne.2 (ne_of_mem_of_not_mem hd h)
  simp only [slash, List.takeWhile_eq_self_iff.2 hbody, List.dropWhile_eq_nil_iff.2 hbody]

theorem first_lexeme {p : Piece} (hp : Lexeme p) {c : Char} {cs : List Char}
    (h : p.text = c :: cs) : first c cs = ⟨p, []⟩ := by
  cases hp with
  | mark hm =>
      cases h
      simp only [marks, List.mem_cons, Prod.mk.injEq, List.not_mem_nil, or_false] at hm
      rcases hm with ⟨rfl, rfl⟩ | ⟨rfl, rfl⟩ | ⟨rfl, rfl⟩ | ⟨rfl, rfl⟩ | ⟨rfl, rfl⟩ | ⟨rfl, rfl⟩ |
        ⟨rfl, rfl⟩ | ⟨rfl, rfl⟩ | ⟨rfl, rfl⟩ | ⟨rfl, rfl⟩ | ⟨rfl, rfl⟩ | ⟨rfl, rfl⟩ | ⟨rfl, rfl⟩ |
        ⟨rfl, rfl⟩ | ⟨rfl, rfl⟩ <;> rfl
  | pair hm =>
      cases h
      simp only [pairs, List.mem_cons, Prod.mk.injEq, List.not_mem_nil, or_false] at hm
      rcases hm with ⟨rfl, rfl⟩ | ⟨rfl, rfl⟩ | ⟨rfl, rfl⟩ | ⟨rfl, rfl⟩ <;> rfl
  | string hbody => cases h; exact quoted_text hbody []
  | @number n hwhole hdigits =>
      obtain ⟨whole, fraction⟩ := n
      cases whole with
      | nil => exact absurd rfl hwhole
      | cons d whole =>
          cases (Numeral.text_cons d whole fraction).symm.trans h
          rw [first_of_digit (hdigits _ (by simp)), number_text whole fraction c hdigits]
          rfl
  | reserved w =>
      obtain ⟨d, ds, hspell, hd, hds⟩ := w.spelling_chars
      cases hspell.symm.trans h
      rw [first_of_letter hd, word_text hds, ← hspell, String.ofList_toList, Kind.ofWord_spelling]
  | identifier hc hcs hfree =>
      cases h
      rw [first_of_letter hc, word_text hcs, Kind.ofWord_eq_identifier]
      intro w hw
      exact hfree w (by rw [hw, String.toList_ofList])
  | comment hbody => cases h; exact slash_text hbody
  | blank hb => cases h; exact first_of_blank hb []

end Cut

/-- Its text alone determines a lexeme, with its kind and value. -/
theorem Lexeme.ext {p q : Piece} (hp : Lexeme p) (hq : Lexeme q) (h : p.text = q.text) : p = q := by
  cases hc : p.text with
  | nil => exact absurd hc hp.text_ne_nil
  | cons c cs =>
      have hcut := (Cut.first_lexeme hp hc).symm.trans (Cut.first_lexeme hq (h ▸ hc))
      exact congrArg Cut.piece hcut

theorem Lexeme.kind_of_newline_mem {kind : Kind} {chars : List Char} {literal : Literal}
    (hp : Lexeme (.token kind chars literal)) (h : '\n' ∈ chars) :
    kind = .string ∧ chars.head? = some '"' := by
  rcases hp.newline_mem h with htext | ⟨cs, htext⟩
  · exact nomatch hp.ext (.blank (c := '\n') (by decide)) htext
  · obtain ⟨body, _, hstring⟩ := hp.eq_string htext
    cases hstring
    exact ⟨rfl, rfl⟩

/-! ## No lexeme in front is longer -/

namespace Cut

theorem length_takeWhile_le_number (c : Char) (cs : List Char) :
    (c :: cs.takeWhile Char.isDigit).length ≤ (number c cs).piece.text.length := by
  unfold number
  split
  · split <;> simp [ofNumeral, Piece.text, Numeral.text]
  · simp [ofNumeral, Piece.text, Numeral.text]

theorem length_le_number {c : Char} {whole fraction : List Char} (more : List Char)
    (h : ∀ d ∈ c :: whole ++ fraction, IsDigit d) :
    (Numeral.text ⟨c :: whole, fraction⟩).length ≤
      (number c (Numeral.text ⟨whole, fraction⟩ ++ more)).piece.text.length := by
  have hw : ∀ d ∈ whole, d.isDigit = true := fun d hd => isDigit_iff.2 (h d (by simp [hd]))
  cases fraction with
  | nil =>
      have hle := length_takeWhile_le_number c (whole ++ more)
      rw [List.takeWhile_append_of_pos hw] at hle
      simp only [Numeral.text, List.length_cons, List.length_append] at hle ⊢
      omega
  | cons e es =>
      have he : e.isDigit = true := isDigit_iff.2 (h e (by simp))
      have hes : ∀ d ∈ es, d.isDigit = true := fun d hd => isDigit_iff.2 (h d (by simp [hd]))
      simp [number, ofNumeral, Piece.text, Numeral.text, List.takeWhile_append_of_pos hw,
        List.dropWhile_append_of_pos hw, show '.'.isDigit = false from rfl, he,
        List.takeWhile_append_of_pos hes]

theorem length_le_word (c : Char) {cs : List Char} (more : List Char)
    (h : ∀ d ∈ cs, IsLetter d ∨ IsDigit d) :
    (c :: cs).length ≤ (word c (cs ++ more)).piece.text.length := by
  have hcs : ∀ d ∈ cs, isWordPart d = true := fun d hd => isWordPart_iff.2 (h d hd)
  simp [word, Piece.text, List.takeWhile_append_of_pos hcs]

theorem length_le_slash {body : List Char} (more : List Char) (h : '\n' ∉ body) :
    ('/' :: '/' :: body).length ≤ (slash ('/' :: body ++ more)).piece.text.length := by
  have hbody : ∀ d ∈ body, (d != '\n') = true := fun d hd =>
    bne_iff_ne.2 (ne_of_mem_of_not_mem hd h)
  simp [slash, Piece.text, List.takeWhile_append_of_pos hbody]

/-- A lexeme in front of a text is no longer than the text's first piece. -/
theorem length_le_first {q : Piece} (hq : Lexeme q) {c : Char} {cs : List Char}
    (h : q.text <+: c :: cs) : q.text.length ≤ (first c cs).piece.text.length := by
  have hone : 1 ≤ (first c cs).piece.text.length :=
    List.length_pos_iff.2 (text_first_ne_nil c cs)
  obtain ⟨more, h⟩ := h
  cases hq with
  | mark _ => exact hone
  | pair hm =>
      cases h
      simp only [pairs, List.mem_cons, Prod.mk.injEq, List.not_mem_nil, or_false] at hm
      rcases hm with ⟨rfl, rfl⟩ | ⟨rfl, rfl⟩ | ⟨rfl, rfl⟩ | ⟨rfl, rfl⟩ <;> exact Nat.le_refl 2
  | @string body hbody =>
      simp only [Piece.text, List.cons_append, List.append_assoc, List.nil_append] at h
      cases h
      rw [show first '"' (body ++ '"' :: more) = _ from quoted_text hbody more]
  | @number n hwhole hdigits =>
      obtain ⟨whole, fraction⟩ := n
      cases whole with
      | nil => exact absurd rfl hwhole
      | cons d whole =>
          simp only [Piece.text, Numeral.text_cons, List.cons_append] at h
          cases h
          rw [first_of_digit (hdigits _ (by simp))]
          exact length_le_number more hdigits
  | reserved w =>
      obtain ⟨d, ds, hspell, hd, hds⟩ := w.spelling_chars
      simp only [Piece.text, hspell, List.cons_append] at h ⊢
      cases h
      rw [first_of_letter hd]
      exact length_le_word _ more hds
  | identifier hc hcs _ =>
      cases h
      rw [List.append_eq, first_of_letter hc]
      exact length_le_word _ more hcs
  | comment hbody => cases h; exact length_le_slash more hbody
  | blank _ => exact hone

theorem prefix_first (c : Char) (cs : List Char) : (first c cs).piece.text <+: c :: cs :=
  ⟨_, first_append c cs⟩

theorem longest_first {c : Char} {cs : List Char} (h : Lexeme (first c cs).piece) :
    Longest (first c cs).piece (c :: cs) :=
  ⟨h, prefix_first c cs, fun _ hq hfront => length_le_first hq hfront⟩

end Cut

/-! ## Where there is no lexeme -/

theorem Lexeme.text_of_front {p : Piece} (hp : Lexeme p) {c : Char} {cs : List Char}
    (h : p.text <+: c :: cs) : ∃ ds, p.text = c :: ds ∧ ds <+: cs := by
  obtain ⟨more, heq⟩ := h
  cases htext : p.text with
  | nil => exact absurd htext hp.text_ne_nil
  | cons d ds =>
      rw [htext] at heq
      cases heq
      exact ⟨ds, rfl, ds.prefix_append more⟩

theorem noLexeme_of_not_begins {c : Char} (h : ¬Begins c) (cs : List Char) :
    NoLexeme (c :: cs) := by
  intro p hp hfront
  obtain ⟨ds, htext, _⟩ := hp.text_of_front hfront
  exact h (hp.begins htext)

theorem noLexeme_of_quote {cs : List Char} (h : '"' ∉ cs) : NoLexeme ('"' :: cs) := by
  intro p hp hfront
  obtain ⟨ds, htext, hds⟩ := hp.text_of_front hfront
  exact h (hds.subset (hp.quote_mem htext))

/-- Of two lexemes in front of a text that begins with a quote there is only one. -/
theorem Lexeme.eq_of_quote {p q : Piece} (hp : Lexeme p) (hq : Lexeme q) {cs : List Char}
    (hpfront : p.text <+: '"' :: cs) (hqfront : q.text <+: '"' :: cs) : p = q := by
  have hcut {r : Piece} (hr : Lexeme r) (hfront : r.text <+: '"' :: cs) :
      (Cut.quoted cs).piece = r := by
    obtain ⟨ds, htext, _⟩ := hr.text_of_front hfront
    obtain ⟨body, hbody, rfl⟩ := hr.eq_string htext
    obtain ⟨more, heq⟩ := hfront
    simp only [Piece.text, List.cons_append, List.append_assoc, List.nil_append] at heq
    cases heq
    rw [Cut.quoted_text hbody]
  exact (hcut hp hpfront).symm.trans (hcut hq hqfront)

/-- What the first cut of a text is: the longest lexeme, or an unclosed string, or a character that
begins nothing. -/
inductive Cut.FirstOf : Char → List Char → Cut → Prop
  | lexeme {c cs} {cut : Cut} (h : Longest cut.piece (c :: cs))
      (happ : cut.piece.text ++ cut.rest = c :: cs) : FirstOf c cs cut
  | unclosed {cs} (h : '"' ∉ cs) : FirstOf '"' cs ⟨.unclosed ('"' :: cs), []⟩
  | stray {c cs} (h : ¬Begins c) : FirstOf c cs ⟨.stray c, cs⟩

theorem Cut.first_spec (c : Char) (cs : List Char) : FirstOf c cs (first c cs) := by
  rcases first_cases c cs with h | ⟨rfl, hq, h⟩ | ⟨hb, h⟩
  · exact .lexeme (longest_first h) (first_append c cs)
  · rw [h]
    exact .unclosed hq
  · rw [h]
    exact .stray hb

theorem Longest.unique {p q : Piece} {text : List Char} (hp : Longest p text)
    (hq : Longest q text) : p = q := by
  have hlen : p.text.length = q.text.length :=
    Nat.le_antisymm (hq.length_le p hp.lexeme hp.front) (hp.length_le q hq.lexeme hq.front)
  exact hp.lexeme.ext hq.lexeme (List.prefix_of_prefix_length_le hp.front hq.front
    (Nat.le_of_eq hlen) |>.eq_of_length hlen)

theorem Longest.first_eq {p : Piece} {c : Char} {cs rest : List Char} (h : Longest p (c :: cs))
    (happ : p.text ++ rest = c :: cs) : Cut.first c cs = ⟨p, rest⟩ := by
  have hspec := Cut.first_spec c cs
  generalize hcut : Cut.first c cs = cut at hspec
  cases hspec with
  | @lexeme _ _ cut hfirst happ' =>
      obtain ⟨q, rest'⟩ := cut
      cases h.unique hfirst
      rw [List.append_cancel_left (happ.trans happ'.symm)]
  | unclosed hq => exact absurd h.front (noLexeme_of_quote hq p h.lexeme)
  | stray hb => exact absurd h.front (noLexeme_of_not_begins hb cs p h.lexeme)

end LoxLexer
