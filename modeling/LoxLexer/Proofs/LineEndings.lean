import LoxLexer.Proofs.Blanks
import Mathlib.Data.List.Forall2

/-!
# Carriage returns in front of line feeds

Whether lines end with a line feed alone or with a carriage return in front of it makes no
difference to a scan, but for the texts of strings with line feeds in them. Both runs take the same
pieces, and the offsets of one are behind those of the other by the line feeds so far
(`forall₂_returned`).
-/

namespace LoxLexer

/-! ## Texts with carriage returns -/

/-- The text with a carriage return in front of every line feed. -/
def withReturns (text : List Char) : List Char :=
  text.flatMap fun c => if c = '\n' then ['\r', '\n'] else [c]

def crlf (source : String) : String := .ofList (withReturns source.toList)

@[simp] theorem toList_crlf (source : String) : (crlf source).toList = withReturns source.toList :=
  String.toList_ofList

section

variable {c : Char} {text : List Char}

@[simp] theorem withReturns_nil : withReturns [] = [] := rfl

@[simp] theorem withReturns_append (a b : List Char) :
    withReturns (a ++ b) = withReturns a ++ withReturns b := List.flatMap_append

theorem withReturns_newline (cs : List Char) :
    withReturns ('\n' :: cs) = '\r' :: '\n' :: withReturns cs := rfl

theorem withReturns_cons (h : c ≠ '\n') (cs : List Char) :
    withReturns (c :: cs) = c :: withReturns cs := by
  rw [withReturns, List.flatMap_cons, if_neg h]
  rfl

theorem withReturns_eq_self (h : '\n' ∉ text) : withReturns text = text := by
  induction text with
  | nil => rfl
  | cons c cs ih =>
      rw [List.mem_cons, not_or] at h
      rw [withReturns_cons (Ne.symm h.1), ih h.2]

theorem mem_withReturns (hc : c ≠ '\r') : c ∈ withReturns text ↔ c ∈ text := by
  induction text with
  | nil => rfl
  | cons d ds ih =>
      by_cases hd : d = '\n'
      · subst hd
        rw [withReturns_newline, List.mem_cons, List.mem_cons, List.mem_cons, ih]
        simp [hc]
      · rw [withReturns_cons hd, List.mem_cons, List.mem_cons, ih]

theorem count_withReturns (text : List Char) :
    (withReturns text).count '\n' = text.count '\n' := by
  induction text with
  | nil => rfl
  | cons c cs ih =>
      by_cases hc : c = '\n'
      · subst hc
        simp [withReturns_newline, ih]
      · rw [withReturns_cons hc, List.count_cons, List.count_cons, ih]

/-- Every line feed takes one byte more. -/
theorem byteSize_withReturns (text : List Char) :
    byteSize (withReturns text) = byteSize text + text.count '\n' := by
  induction text with
  | nil => rfl
  | cons c cs ih =>
      by_cases hc : c = '\n'
      · subst hc
        have hreturn : '\r'.utf8Size = 1 := rfl
        rw [withReturns_newline, byteSize_cons, byteSize_cons, byteSize_cons, ih,
          List.count_cons_self, hreturn]
        omega
      · rw [withReturns_cons hc, byteSize_cons, byteSize_cons, ih, List.count_cons_of_ne hc,
          Nat.add_assoc]

end

/-! ## Pieces with carriage returns -/

/-- A text with carriage returns in it. Other literals are kept. -/
def Literal.withReturns : Literal → Literal
  | .text value => .text (crlf value)
  | literal => literal

/-- Only the line feeds in strings are part of a token. -/
theorem Lexeme.withReturns_eq_self {kind : Kind} {chars : List Char} {literal : Literal}
    (h : Lexeme (.token kind chars literal)) (hkind : kind ≠ .string) :
    withReturns chars = chars ∧ literal.withReturns = literal := by
  refine ⟨LoxLexer.withReturns_eq_self fun hmem => hkind (h.kind_of_newline_mem hmem).1, ?_⟩
  cases h with
  | string _ => exact absurd rfl hkind
  | _ => rfl

theorem Lexeme.eq_of_string {chars : List Char} {literal : Literal}
    (h : Lexeme (.token .string chars literal)) :
    ∃ body, '"' ∉ body ∧ chars = '"' :: body ++ ['"'] ∧ literal = .text (.ofList body) := by
  cases h with
  | mark hm => simp [marks] at hm
  | pair hm => simp [pairs] at hm
  | string hbody => exact ⟨_, hbody, rfl, rfl⟩

/-- Behind a token, carriage returns are blanks like others. -/
theorem Longest.append_withReturns {p : Piece} {rest : List Char} (h : Longest p (p.text ++ rest))
    (hp : ¬['/', '/'] <+: p.text) : Longest p (p.text ++ withReturns rest) := by
  by_cases hmem : '\n' ∈ rest
  · obtain ⟨front, back, rfl, hfront⟩ := List.eq_append_cons_of_mem hmem
    rw [withReturns_append, LoxLexer.withReturns_eq_self hfront, withReturns_newline]
    exact h.insert_blank (by decide) (.inr hp) _
  · rwa [LoxLexer.withReturns_eq_self hmem]

theorem Longest.withReturns {kind : Kind} {chars rest : List Char} {literal : Literal}
    (h : Longest (.token kind chars literal) (chars ++ rest)) :
    Longest (.token kind (withReturns chars) literal.withReturns)
      (withReturns chars ++ withReturns rest) := by
  by_cases hkind : kind = .string
  · subst hkind
    obtain ⟨body, hbody, rfl, rfl⟩ := h.lexeme.eq_of_string
    have hchars : LoxLexer.withReturns ('"' :: body ++ ['"']) =
        '"' :: LoxLexer.withReturns body ++ ['"'] := by
      rw [withReturns_append, withReturns_cons (by decide)]
      rfl
    rw [hchars, Literal.withReturns, crlf, String.toList_ofList]
    exact longest_string (fun hmem => hbody ((mem_withReturns (by decide)).1 hmem)) _
  · obtain ⟨hchars, hliteral⟩ := h.lexeme.withReturns_eq_self hkind
    rw [hchars, hliteral]
    exact h.append_withReturns h.lexeme.not_slashes

theorem eventsAt_trivia_withReturns {chars rest : List Char}
    (h : Longest (.trivia chars) (chars ++ rest)) (l : Location) :
    eventsAt l (withReturns chars ++ withReturns rest) =
      eventsAt (l.after (withReturns chars)) (withReturns rest) := by
  cases h.lexeme with
  | @blank c hc =>
      refine eventsAt_blanks (fun d hd => ?_) l _
      by_cases hline : c = '\n'
      · subst hline
        have hall : ∀ d ∈ withReturns ['\n'], d ∈ blanks := List.all_iff_forall_prop.1 (by decide)
        exact hall d hd
      · rw [withReturns_cons hline, withReturns_nil] at hd
        cases List.mem_singleton.1 hd
        exact hc
  | @comment body hbody =>
      have hchars : '\n' ∉ '/' :: '/' :: body := by simp [hbody]
      rw [withReturns_eq_self hchars]
      rcases h.comment_end with rfl | ⟨cs, rfl⟩
      · exact eventsAt_trivia h l
      · -- The comment takes in the carriage return, which is a blank without it.
        have hbody' : '\n' ∉ body ++ ['\r'] := by simp [hbody]
        have htext : '/' :: '/' :: body ++ '\r' :: '\n' :: withReturns cs =
            '/' :: '/' :: (body ++ ['\r']) ++ '\n' :: withReturns cs := by simp
        have hstop : l.after ('/' :: '/' :: (body ++ ['\r'])) =
            (l.after ('/' :: '/' :: body)).after ['\r'] :=
          Location.after_append l ('/' :: '/' :: body) ['\r']
        rw [withReturns_newline, htext, eventsAt_trivia (longest_comment hbody' _), hstop,
          eventsAt_blank (c := '\r') (by decide)]

/-! ## Offsets with carriage returns -/

/-- Both offsets of the second span are those of the first and the line feeds before these. -/
structure Span.Returned (source : String) (p q : Span) : Prop where
  first : q.first = p.first + lineFeeds source 0 p.first
  last : q.last = p.last + lineFeeds source 0 p.last

section

variable {source : String} {before text rest : List Char}

theorem offset_withReturns (text : List Char) :
    (Location.start.after (withReturns text)).offset =
      (Location.start.after text).offset + text.count '\n' := by
  simp only [Location.after, byteSize_withReturns]
  omega

theorem line_withReturns (before text : List Char) :
    ((Location.start.after (withReturns before)).after (withReturns text)).line =
      ((Location.start.after before).after text).line := by
  simp only [Location.after, count_withReturns]

/-- The span of a part of the source, and the span of that part with carriage returns. -/
theorem returned_spanOf (hsource : source.toList = before ++ (text ++ rest))
    (hsize : (Location.start.after (withReturns source.toList)).offset ≤ 4294967295) :
    Span.Returned source ((Location.start.after before).spanOf text)
      ((Location.start.after (withReturns before)).spanOf (withReturns text)) := by
  have hfirst := lineFeeds_front hsource
  have hlast := lineFeeds_front (hsource.trans (List.append_assoc ..).symm)
  have hstop : (Location.start.after (withReturns before)).after (withReturns text) =
      Location.start.after (withReturns (before ++ text)) := by
    rw [← Location.after_append, withReturns_append]
  have hfits : (Location.start.after (withReturns (before ++ text))).offset ≤ 4294967295 := by
    rw [hsource, ← List.append_assoc, withReturns_append, Location.after_append] at hsize
    exact Nat.le_trans (Location.offset_le_offset_after _ _) hsize
  have hplain : ((Location.start.after before).after text).offset ≤ 4294967295 := by
    rw [offset_withReturns, Location.after_append] at hfits
    exact Nat.le_trans (Nat.le_add_right _ _) hfits
  have hoffset (a : List Char) : (Location.start.after a).offset = byteSize a := Nat.zero_add _
  rw [← hstop] at hfits
  constructor
  · rw [Location.first_spanOf hfits, Location.first_spanOf hplain, offset_withReturns, hoffset,
      hfirst]
  · rw [Location.last_spanOf hfits, Location.last_spanOf hplain, hstop, ← Location.after_append,
      offset_withReturns, hoffset, hlast]

end

/-! ## Scans with carriage returns -/

/-- The second token is the first one, with carriage returns in its text and in front of it. -/
structure Token.Returned (source : String) (t u : Token) : Prop where
  kind : u.kind = t.kind
  line : u.line = t.line
  lexeme : u.lexeme = crlf t.lexeme
  literal : u.literal = t.literal.withReturns
  plain : t.kind ≠ .string → u.lexeme = t.lexeme ∧ u.literal = t.literal
  span : Span.Returned source t.span u.span

structure Diagnostic.Returned (source : String) (d e : Diagnostic) : Prop where
  line : e.line = d.line
  code : e.code = d.code
  message : e.message = d.message
  span : ∃ p q, d.span = some p ∧ e.span = some q ∧ Span.Returned source p q

inductive Event.Returned (source : String) : Event → Event → Prop
  | token {t u} (h : Token.Returned source t u) : Returned source (.token t) (.token u)
  | error {e f : LexicalError} (h : Diagnostic.Returned source e.diagnostic f.diagnostic) :
      Returned source (.error e) (.error f)

theorem returned_unexpectedCharacter {source : String} {p q : Span}
    (h : Span.Returned source p q) (line : Nat) (c : Char) :
    Event.Returned source (.error (.unexpectedCharacter line c p))
      (.error (.unexpectedCharacter line c q)) := .error ⟨rfl, rfl, rfl, p, q, rfl, rfl, h⟩

theorem returned_unterminatedString {source : String} {p q : Span}
    (h : Span.Returned source p q) (line : Nat) :
    Event.Returned source (.error (.unterminatedString line p))
      (.error (.unterminatedString line q)) := .error ⟨rfl, rfl, rfl, p, q, rfl, rfl, h⟩

theorem forall₂_returned {source : String} {before text : List Char}
    (hsource : source.toList = before ++ text)
    (hsize : (Location.start.after (withReturns source.toList)).offset ≤ 4294967295) :
    List.Forall₂ (Event.Returned source) (eventsAt (Location.start.after before) text)
      (eventsAt (Location.start.after (withReturns before)) (withReturns text)) := by
  -- By the pieces of the text. What stands in front of a piece fixes its places in both texts.
  induction text using scan_induction generalizing before with
  | nil =>
      rw [withReturns_nil, eventsAt_nil, eventsAt_nil]
      exact .nil
  | token kind chars literal rest hp ih =>
      have hspan := returned_spanOf hsource hsize
      have hrest := @ih (before ++ chars) (by rw [hsource, List.append_assoc])
      rw [withReturns_append before, Location.after_append, Location.after_append] at hrest
      rw [withReturns_append, eventsAt_token hp, eventsAt_token hp.withReturns]
      refine .cons (.token ⟨rfl, line_withReturns before chars, ?_, rfl, fun hkind => ?_, hspan⟩)
        hrest
      · rw [crlf, String.toList_ofList]
      · obtain ⟨hchars, hliteral⟩ := hp.lexeme.withReturns_eq_self hkind
        exact ⟨congrArg String.ofList hchars, hliteral⟩
  | trivia chars rest hp ih =>
      have hrest := @ih (before ++ chars) (by rw [hsource, List.append_assoc])
      rw [withReturns_append before, Location.after_append, Location.after_append] at hrest
      rw [withReturns_append, eventsAt_trivia hp, eventsAt_trivia_withReturns hp]
      exact hrest
  | unclosed cs hq =>
      have hfree : '"' ∉ withReturns cs := fun hmem => hq ((mem_withReturns (by decide)).1 hmem)
      have htext : withReturns ('"' :: cs) = '"' :: withReturns cs :=
        withReturns_cons (by decide) cs
      have hspan := returned_spanOf (hsource.trans (by rw [List.append_nil])) hsize
      have hevent := returned_unterminatedString hspan
        ((Location.start.after before).after ('"' :: cs)).line
      rw [htext] at hevent
      rw [htext, eventsAt_unclosed hq, eventsAt_unclosed hfree, ← htext, line_withReturns, htext]
      exact .cons hevent .nil
  | stray c cs hb ih =>
      have hc : c ≠ '\n' := by
        rintro rfl
        exact hb (.inl (by decide))
      have hone : withReturns [c] = [c] := withReturns_cons hc []
      have hspan := @returned_spanOf source before [c] cs hsource hsize
      have hevent := returned_unexpectedCharacter hspan
        ((Location.start.after before).after [c]).line c
      have hline := line_withReturns before [c]
      have hrest := @ih (before ++ [c]) (by rw [hsource, List.append_assoc]; rfl)
      rw [withReturns_append before, Location.after_append, Location.after_append, hone] at hrest
      rw [hone] at hevent hline
      rw [withReturns_cons hc, eventsAt_stray hb, eventsAt_stray hb, hline]
      exact .cons hevent hrest

theorem returned_tokensOf {source : String} {es fs : List Event}
    (h : List.Forall₂ (Event.Returned source) es fs) :
    List.Forall₂ (Token.Returned source) (tokensOf es) (tokensOf fs) := by
  induction h with
  | nil => exact .nil
  | cons hevent _ ih =>
      cases hevent with
      | token h => exact .cons h ih
      | error _ => exact ih

theorem returned_diagnosticsOf {source : String} {es fs : List Event}
    (h : List.Forall₂ (Event.Returned source) es fs) :
    List.Forall₂ (Diagnostic.Returned source) (diagnosticsOf es) (diagnosticsOf fs) := by
  induction h with
  | nil => exact .nil
  | cons hevent _ ih =>
      cases hevent with
      | token _ => exact ih
      | error h => exact .cons h ih

theorem returned_eof {source : String} {line stop stop' : Nat}
    (hstop : stop' = stop + lineFeeds source 0 stop) (hsize : stop' ≤ 4294967295) :
    Token.Returned source (.eof line stop) (.eof line stop') := by
  have hfits : stop ≤ 4294967295 := by omega
  have hempty : crlf "" = "" := rfl
  refine ⟨rfl, rfl, hempty.symm, rfl, fun _ => ⟨rfl, rfl⟩, ?_, ?_⟩
  · rw [Token.first_eof hsize, Token.first_eof hfits, hstop]
  · rw [Token.last_eof hsize, Token.last_eof hfits, hstop]

theorem utf8ByteSize_crlf (source : String) : (crlf source).utf8ByteSize =
    source.utf8ByteSize + lineFeeds source 0 source.utf8ByteSize := by
  have hcount := lineFeeds_front (List.append_nil source.toList).symm
  rw [byteSize_toList] at hcount
  rw [← byteSize_toList (crlf source), toList_crlf, byteSize_withReturns, byteSize_toList, hcount]

/-- With a carriage return in front of every line feed a source is scanned as without. -/
theorem scan_crlf (source : String) (hsize : (crlf source).utf8ByteSize ≤ 4294967295) :
    List.Forall₂ (Token.Returned source) (scan source).tokens (scan (crlf source)).tokens ∧
      List.Forall₂ (Diagnostic.Returned source) (scan source).diagnostics.toList
        (scan (crlf source)).diagnostics.toList := by
  have hfits : (Location.start.after (withReturns source.toList)).offset ≤ 4294967295 := by
    rwa [← toList_crlf, offset_after_toList]
  have hevents : List.Forall₂ (Event.Returned source) (events source) (events (crlf source)) := by
    have hreturned := @forall₂_returned source [] source.toList rfl hfits
    rw [← toList_crlf] at hreturned
    exact hreturned
  have hline : (Location.start.after (crlf source).toList).line =
      (Location.start.after source.toList).line := by
    rw [toList_crlf]
    exact line_withReturns [] source.toList
  rw [tokens_scan, tokens_scan, diagnostics_scan, diagnostics_scan, hline, offset_after_toList,
    offset_after_toList]
  refine ⟨List.rel_append (returned_tokensOf hevents) (.cons ?_ .nil),
    returned_diagnosticsOf hevents⟩
  exact returned_eof (utf8ByteSize_crlf source) hsize

/-- Line feeds behind an operator, a comment and a number, and in a string and an open one. -/
theorem scan_crlf_strings :
    (crlf "=\n= // \"\n1.\n\"a\r\nb\" # \"\n").utf8ByteSize ≤ 4294967295 ∧
      List.Forall₂ (Token.Returned "=\n= // \"\n1.\n\"a\r\nb\" # \"\n")
        (scan "=\n= // \"\n1.\n\"a\r\nb\" # \"\n").tokens
        (scan "=\r\n= // \"\r\n1.\r\n\"a\r\r\nb\" # \"\r\n").tokens ∧
      List.Forall₂ (Diagnostic.Returned "=\n= // \"\n1.\n\"a\r\nb\" # \"\n")
        (scan "=\n= // \"\n1.\n\"a\r\nb\" # \"\n").diagnostics.toList
        (scan "=\r\n= // \"\r\n1.\r\n\"a\r\r\nb\" # \"\r\n").diagnostics.toList := by
  have hsize : (crlf "=\n= // \"\n1.\n\"a\r\nb\" # \"\n").utf8ByteSize ≤ 4294967295 := by decide
  exact ⟨hsize, scan_crlf _ hsize⟩

end LoxLexer
