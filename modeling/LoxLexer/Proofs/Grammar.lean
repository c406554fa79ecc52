import LoxLexer.Number.Nearest
import LoxLexer.Scan.Piece
import Mathlib.Data.Bool.AllAny

/-!
# The lexical grammar

The lexemes of the language, class by class, and the longest lexeme in front of a text. Nothing here
looks at how a text is cut: `Lexeme` says which pieces there are, and `Longest` which one comes
first.
-/

namespace LoxLexer

/-! ## Characters -/

def IsDigit (c : Char) : Prop := '0'.toNat ≤ c.toNat ∧ c.toNat ≤ '9'.toNat

/-- The ASCII letters and the underscore. -/
def IsLetter (c : Char) : Prop :=
  'A'.toNat ≤ c.toNat ∧ c.toNat ≤ 'Z'.toNat ∨ 'a'.toNat ≤ c.toNat ∧ c.toNat ≤ 'z'.toNat ∨ c = '_'

def blanks : List Char := [' ', '\t', '\r', '\n']

instance (c : Char) : Decidable (IsDigit c) := inferInstanceAs (Decidable (_ ∧ _))

instance (c : Char) : Decidable (IsLetter c) := inferInstanceAs (Decidable (_ ∨ _))

theorem isDigit_iff {c : Char} : c.isDigit = true ↔ IsDigit c := by
  have hdigit : c.isDigit = (decide ('0'.val ≤ c.val) && decide (c.val ≤ '9'.val)) := rfl
  simp only [hdigit, Bool.and_eq_true, decide_eq_true_eq, UInt32.le_iff_toNat_le]
  rfl

theorem isWordStart_iff {c : Char} : isWordStart c = true ↔ IsLetter c := by
  have halpha : c.isAlpha = (decide ('A'.val ≤ c.val ∧ c.val ≤ 'Z'.val) ||
    decide ('a'.val ≤ c.val) && decide (c.val ≤ 'z'.val)) := rfl
  simp only [isWordStart, halpha, Bool.or_eq_true, Bool.and_eq_true, decide_eq_true_eq, beq_iff_eq,
    UInt32.le_iff_toNat_le, or_assoc]
  rfl

theorem isWordPart_iff {c : Char} : isWordPart c = true ↔ IsLetter c ∨ IsDigit c := by
  rw [isWordPart, Bool.or_eq_true, isWordStart_iff, isDigit_iff]

theorem isBlank_iff {c : Char} : isBlank c = true ↔ c ∈ blanks := by
  simp [isBlank, blanks, or_assoc]

/-! ## Lexemes -/

/-- The lexemes that are one mark. -/
def marks : List (Char × Kind) :=
  [('(', .leftParen), (')', .rightParen), ('{', .leftBrace), ('}', .rightBrace), (',', .comma),
    ('.', .dot), ('-', .minus), ('+', .plus), (';', .semicolon), ('*', .star), ('/', .slash),
    ('!', .bang), ('=', .equal), ('<', .less), ('>', .greater)]

/-- The marks that make a lexeme of their own with an equals sign after them. -/
def pairs : List (Char × Kind) :=
  [('!', .bangEqual), ('=', .equalEqual), ('<', .lessEqual), ('>', .greaterEqual)]

/-- The pieces that the grammar knows: tokens with their kinds and values, comments and blanks. -/
inductive Lexeme : Piece → Prop
  | mark {c kind} (h : (c, kind) ∈ marks) : Lexeme (.token kind [c] .absent)
  | pair {c kind} (h : (c, kind) ∈ pairs) : Lexeme (.token kind [c, '='] .absent)
  | string {body : List Char} (h : '"' ∉ body) :
      Lexeme (.token .string ('"' :: body ++ ['"']) (.text (.ofList body)))
  | number {n : Numeral} (hwhole : n.whole ≠ []) (h : ∀ c ∈ n.whole ++ n.fraction, IsDigit c) :
      Lexeme (.token .number n.text (.number n.value))
  | reserved (word : Keyword) : Lexeme (.token (.keyword word) word.spelling.toList .absent)
  | identifier {c cs} (hc : IsLetter c) (hcs : ∀ d ∈ cs, IsLetter d ∨ IsDigit d)
      (h : ∀ word : Keyword, word.spelling.toList ≠ c :: cs) :
      Lexeme (.token .identifier (c :: cs) .absent)
  | comment {body : List Char} (h : '\n' ∉ body) : Lexeme (.trivia ('/' :: '/' :: body))
  | blank {c} (h : c ∈ blanks) : Lexeme (.trivia [c])

/-- A lexeme that the text begins with, and none that it begins with is longer. -/
structure Longest (p : Piece) (text : List Char) : Prop where
  lexeme : Lexeme p
  front : p.text <+: text
  length_le : ∀ q, Lexeme q → q.text <+: text → q.text.length ≤ p.text.length

/-- The text begins with no lexeme. -/
def NoLexeme (text : List Char) : Prop := ∀ p, Lexeme p → ¬p.text <+: text

/-- The characters that begin lexemes, and the quote. -/
def Begins (c : Char) : Prop :=
  c ∈ blanks ∨ c ∈ marks.map Prod.fst ∨ c = '"' ∨ IsLetter c ∨ IsDigit c

/-- The characters that are neither letters nor digits and still begin a lexeme or a string. -/
def specials : List Char := '"' :: blanks ++ marks.map Prod.fst

theorem IsDigit.not_special {c : Char} (h : IsDigit c) : c ∉ specials := by
  have hall : ∀ d ∈ specials, ¬IsDigit d := List.all_iff_forall_prop.1 (by decide)
  exact fun hmem => hall c hmem h

theorem IsLetter.not_special {c : Char} (h : IsLetter c) : c ∉ specials := by
  have hall : ∀ d ∈ specials, ¬IsLetter d := List.all_iff_forall_prop.1 (by decide)
  exact fun hmem => hall c hmem h

theorem IsLetter.not_digit {c : Char} (h : IsLetter c) : ¬IsDigit c := by
  rintro ⟨_, hnine⟩
  rcases h with ⟨hA, _⟩ | ⟨ha, _⟩ | rfl
  · exact absurd (Nat.le_trans hA hnine) (by decide)
  · exact absurd (Nat.le_trans ha hnine) (by decide)
  · exact absurd hnine (by decide)

theorem not_special_iff {c : Char} :
    c ∉ specials ↔ c ≠ '"' ∧ c ∉ blanks ∧ c ∉ marks.map Prod.fst := by
  rw [specials, List.cons_append, List.mem_cons, List.mem_append, not_or, not_or]

/-! ## How lexemes are spelled -/

@[simp] theorem Numeral.text_cons (c : Char) (whole fraction : List Char) :
    Numeral.text ⟨c :: whole, fraction⟩ = c :: Numeral.text ⟨whole, fraction⟩ := by
  cases fraction <;> rfl

theorem Numeral.mem_text {n : Numeral} (h : ∀ c ∈ n.whole ++ n.fraction, IsDigit c) {c : Char}
    (hc : c ∈ n.text) : IsDigit c ∨ c = '.' := by
  obtain ⟨whole, fraction⟩ := n
  cases fraction with
  | nil => exact .inl (h c (List.mem_append_left _ hc))
  | cons d ds =>
      rcases List.mem_append.1 hc with hc | hc
      · exact .inl (h c (List.mem_append_left _ hc))
      · rcases List.mem_cons.1 hc with rfl | hc
        · exact .inr rfl
        · exact .inl (h c (List.mem_append_right _ hc))

/-- A reserved word is spelled like every other word. -/
theorem Keyword.spelling_chars (word : Keyword) : ∃ c cs, word.spelling.toList = c :: cs ∧
    IsLetter c ∧ ∀ d ∈ cs, IsLetter d ∨ IsDigit d := by
  cases word <;> exact ⟨_, _, rfl, by decide, List.all_iff_forall_prop.1 (by decide)⟩

namespace Lexeme

theorem text_ne_nil {p : Piece} (hp : Lexeme p) : p.text ≠ [] := by
  cases hp with
  | @number n hwhole _ =>
      obtain ⟨whole, fraction⟩ := n
      cases whole with
      | nil => exact absurd rfl hwhole
      | cons c whole => simp [Piece.text]
  | reserved word =>
      obtain ⟨c, cs, h, _⟩ := word.spelling_chars
      simp [Piece.text, h]
  | _ => simp [Piece.text]

theorem begins {p : Piece} (hp : Lexeme p) {c : Char} {cs : List Char} (h : p.text = c :: cs) :
    Begins c := by
  cases hp with
  | mark hc => cases h; exact .inr (.inl (List.mem_map_of_mem hc))
  | pair hc =>
      cases h
      simp only [pairs, List.mem_cons, Prod.mk.injEq, List.not_mem_nil, or_false] at hc
      rcases hc with ⟨rfl, _⟩ | ⟨rfl, _⟩ | ⟨rfl, _⟩ | ⟨rfl, _⟩ <;> exact .inr (.inl (by decide))
  | string _ => cases h; exact .inr (.inr (.inl rfl))
  | @number n hwhole hdigits =>
      obtain ⟨whole, fraction⟩ := n
      cases whole with
      | nil => exact absurd rfl hwhole
      | cons d whole =>
          cases (Numeral.text_cons d whole fraction).symm.trans h
          exact .inr (.inr (.inr (.inr (hdigits _ (by simp)))))
  | reserved word =>
      obtain ⟨d, ds, hspell, hd, _⟩ := word.spelling_chars
      cases hspell.symm.trans h
      exact .inr (.inr (.inr (.inl hd)))
  | identifier hc _ _ => cases h; exact .inr (.inr (.inr (.inl hc)))
  | comment _ => cases h; exact .inr (.inl (by decide))
  | blank hc => cases h; exact .inl hc

theorem eq_string {p : Piece} (hp : Lexeme p) {cs : List Char} (h : p.text = '"' :: cs) :
    ∃ body, '"' ∉ body ∧ p = .token .string ('"' :: body ++ ['"']) (.text (.ofList body)) := by
  cases hp with
  | mark hc => cases h; simp [marks] at hc
  | pair hc => cases h; simp [pairs] at hc
  | string hbody => exact ⟨_, hbody, rfl⟩
  | @number n hwhole hdigits =>
      have hc := Numeral.mem_text hdigits (c := '"') (by rw [show n.text = _ from h]; simp)
      exact absurd hc (by decide)
  | reserved word =>
      obtain ⟨d, ds, hspell, hd, _⟩ := word.spelling_chars
      cases hspell.symm.trans h
      exact absurd hd (by decide)
  | identifier hc _ _ => cases h; exact absurd hc (by decide)
  | comment _ => cases h
  | blank hc => cases h; simp [blanks] at hc

/-- A string has its text as its literal, a number has its value, and no other token has a
literal. -/
theorem literal_cases {kind : Kind} {chars : List Char} {literal : Literal}
    (h : Lexeme (.token kind chars literal)) :
    (kind = .string ∧ ∃ body, '"' ∉ body ∧ chars = '"' :: body ++ ['"'] ∧
      literal = .text (.ofList body)) ∨
    (kind = .number ∧ ∃ n : Numeral, n.whole ≠ [] ∧ (∀ c ∈ n.whole ++ n.fraction, IsDigit c) ∧
      chars = n.text ∧ literal = .number n.value) ∨
    (kind ≠ .string ∧ kind ≠ .number ∧ literal = .absent) := by
  have hmarks : ∀ m ∈ marks ++ pairs, m.2 ≠ .string ∧ m.2 ≠ .number :=
    List.all_iff_forall_prop.1 (by decide)
  cases h with
  | mark hm =>
      obtain ⟨hstring, hnumber⟩ := hmarks _ (List.mem_append_left _ hm)
      exact .inr (.inr ⟨hstring, hnumber, rfl⟩)
  | pair hm =>
      obtain ⟨hstring, hnumber⟩ := hmarks _ (List.mem_append_right _ hm)
      exact .inr (.inr ⟨hstring, hnumber, rfl⟩)
  | string hbody => exact .inl ⟨rfl, _, hbody, rfl, rfl⟩
  | number hwhole hdigits => exact .inr (.inl ⟨rfl, _, hwhole, hdigits, rfl, rfl⟩)
  | reserved word => exact .inr (.inr ⟨nofun, nofun, rfl⟩)
  | identifier _ _ _ => exact .inr (.inr ⟨nofun, nofun, rfl⟩)

theorem quote_mem {p : Piece} (hp : Lexeme p) {cs : List Char} (h : p.text = '"' :: cs) :
    '"' ∈ cs := by
  obtain ⟨body, _, rfl⟩ := hp.eq_string h
  cases h
  simp

theorem slashes : Lexeme (.trivia ['/', '/']) := .comment List.not_mem_nil

/-- A blank is a lexeme alone; apart from that, only strings and comments hold blanks. -/
theorem blank_mem {p : Piece} (hp : Lexeme p) {c : Char} (hc : c ∈ blanks) (h : c ∈ p.text) :
    p.text = [c] ∨ (∃ cs, p.text = '"' :: cs) ∨
      ∃ body, p.text = '/' :: '/' :: body ∧ '\n' ∉ body := by
  have hfree : ∀ d ∈ blanks, ¬(IsLetter d ∨ IsDigit d) ∧ d ≠ '.' ∧ d ∉ '=' :: marks.map Prod.fst :=
    List.all_iff_forall_prop.1 (by decide)
  obtain ⟨hword, hdot, hmarks⟩ := hfree c hc
  cases hp with
  | mark hm =>
      cases List.mem_singleton.1 h
      exact absurd (List.mem_cons_of_mem _ (List.mem_map_of_mem hm)) hmarks
  | pair hm =>
      have hall : ∀ m ∈ pairs, m.1 ∈ '=' :: marks.map Prod.fst :=
        List.all_iff_forall_prop.1 (by decide)
      simp only [Piece.text, List.mem_cons, List.not_mem_nil, or_false] at h
      rcases h with rfl | rfl
      · exact absurd (hall _ hm) hmarks
      · exact absurd List.mem_cons_self hmarks
  | string _ => exact .inr (.inl ⟨_, rfl⟩)
  | number _ hdigits =>
      rcases Numeral.mem_text hdigits h with h | h
      · exact absurd (.inr h) hword
      · exact absurd h hdot
  | reserved word =>
      obtain ⟨d, ds, hspell, hd, hds⟩ := word.spelling_chars
      simp only [Piece.text, hspell] at h
      rcases List.mem_cons.1 h with rfl | h
      · exact absurd (.inl hd) hword
      · exact absurd (hds _ h) hword
  | identifier hd hds _ =>
      rcases List.mem_cons.1 h with rfl | h
      · exact absurd (.inl hd) hword
      · exact absurd (hds _ h) hword
  | comment hbody => exact .inr (.inr ⟨_, rfl, hbody⟩)
  | blank _ =>
      cases List.mem_singleton.1 h
      exact .inl rfl

/-- Only strings hold line feeds; apart from them, a line feed is a lexeme alone. -/
theorem newline_mem {p : Piece} (hp : Lexeme p) (h : '\n' ∈ p.text) :
    p.text = ['\n'] ∨ ∃ cs, p.text = '"' :: cs := by
  rcases hp.blank_mem (by decide) h with halone | hstring | ⟨body, hcomment, hbody⟩
  · exact .inl halone
  · exact .inr hstring
  · rw [hcomment] at h
    simp only [List.mem_cons, Char.reduceEq, false_or] at h
    exact absurd h hbody

end Lexeme

end LoxLexer
