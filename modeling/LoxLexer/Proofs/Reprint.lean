import LoxLexer.Proofs.Blanks

/-!
# Tokens printed and scanned again

A lexeme is cut whole in front of a blank. So the lexemes of any tokens, from whatever sources, with
blanks between neighbours are scanned as these tokens, each where its lexeme was put.
-/

namespace LoxLexer

/-! ## Texts with separators -/

/-- The texts one after the other, each with its separator behind it as long as there are any. -/
def weave : List String → List String → String
  | [], _ => ""
  | text :: texts, seps => text ++ seps.headD "" ++ weave texts seps.tail

/-- What stands before a text is made of the texts and separators before it. -/
theorem weave_eq_append {texts : List String} {i : Nat} {text : String} (h : texts[i]? = some text)
    (seps : List String) :
    ∃ after, weave texts seps = weave (texts.take i) (seps.take i) ++ text ++ after := by
  induction texts generalizing i seps with
  | nil => cases h
  | cons first texts ih =>
      cases i with
      | zero =>
          cases h
          exact ⟨_, by rw [weave, List.take_zero, weave, String.empty_append, String.append_assoc]⟩
      | succ i =>
          obtain ⟨after, hafter⟩ := ih h seps.tail
          refine ⟨after, ?_⟩
          rw [weave, hafter, List.take_succ_cons, weave]
          cases seps <;> simp [String.append_assoc]

/-! ## Tokens at their new places -/

def Token.placedAt (t : Token) (l : Location) : Token :=
  { t with
    line := (l.after t.lexeme.toList).line
    span := l.spanOf t.lexeme.toList }

/-- The tokens as they stand in the text woven from their lexemes. -/
def placed (l : Location) : List Token → List String → List Token
  | [], _ => []
  | t :: ts, seps =>
    t.placedAt l :: placed ((l.after t.lexeme.toList).after (seps.headD "").toList) ts seps.tail

theorem length_placed (l : Location) (ts : List Token) (seps : List String) :
    (placed l ts seps).length = ts.length := by
  induction ts generalizing l seps with
  | nil => rfl
  | cons t ts ih => rw [placed, List.length_cons, ih, List.length_cons]

theorem getElem?_placed {l : Location} {ts : List Token} {i : Nat} {t : Token}
    (h : ts[i]? = some t) (seps : List String) :
    (placed l ts seps)[i]? =
      some (t.placedAt (l.after (weave ((ts.map Token.lexeme).take i) (seps.take i)).toList)) := by
  induction ts generalizing l i seps with
  | nil => cases h
  | cons u ts ih =>
      cases i with
      | zero => cases h; rfl
      | succ i =>
          rw [placed, List.getElem?_cons_succ, ih h, List.map_cons, List.take_succ_cons, weave]
          cases seps <;> simp [Location.after_append]

theorem eventsAt_token_placedAt {t : Token} {rest : List Char}
    (h : Longest (.token t.kind t.lexeme.toList t.literal) (t.lexeme.toList ++ rest))
    (l : Location) : eventsAt l (t.lexeme.toList ++ rest) =
      .token (t.placedAt l) :: eventsAt (l.after t.lexeme.toList) rest := by
  rw [eventsAt_token h, String.ofList_toList]
  rfl

/-- Separators are blanks, and there are some. -/
def Separates (sep : String) : Prop := sep ≠ "" ∧ ∀ c ∈ sep.toList, c ∈ blanks

instance (sep : String) : Decidable (Separates sep) :=
  -- Not by trying all characters.
  have : Decidable (∀ c ∈ sep.toList, c ∈ blanks) := List.decidableBAll (· ∈ blanks) sep.toList
  inferInstanceAs (Decidable (_ ∧ _))

theorem eventsAt_token_separated {t : Token}
    (ht : Lexeme (.token t.kind t.lexeme.toList t.literal)) {sep : String} (hsep : Separates sep)
    (l : Location) (rest : List Char) :
    eventsAt l (t.lexeme.toList ++ (sep.toList ++ rest)) =
      .token (t.placedAt l) :: eventsAt ((l.after t.lexeme.toList).after sep.toList) rest := by
  obtain ⟨hne, hblanks⟩ := hsep
  rw [← eventsAt_blanks hblanks]
  cases hchars : sep.toList with
  | nil => exact absurd (String.toList_eq_nil_iff.1 hchars) hne
  | cons c cs =>
      have hc : c ∈ blanks := hblanks c (by rw [hchars]; exact List.mem_cons_self)
      exact eventsAt_token_placedAt
        (ht.longest.append_blank hc (.inr ht.not_slashes) (cs ++ rest)) l

theorem eventsAt_weave (l : Location) {ts : List Token} {seps : List String}
    (hts : ∀ t ∈ ts, Lexeme (.token t.kind t.lexeme.toList t.literal))
    (hlen : seps.length = ts.length - 1) (hseps : ∀ sep ∈ seps, Separates sep) :
    eventsAt l (weave (ts.map Token.lexeme) seps).toList = (placed l ts seps).map Event.token := by
  induction ts generalizing l seps with
  | nil => exact eventsAt_nil l
  | cons t ts ih =>
      have ht := hts t List.mem_cons_self
      have hrest := fun u hu => hts u (List.mem_cons_of_mem t hu)
      rw [List.length_cons, Nat.add_sub_cancel] at hlen
      cases seps with
      | nil =>
          -- The last lexeme has nothing behind it.
          cases List.eq_nil_of_length_eq_zero hlen.symm
          have hlong : Longest (.token t.kind t.lexeme.toList t.literal)
              (t.lexeme.toList ++ []) := by
            rw [List.append_nil]
            exact ht.longest
          simpa [weave, placed] using eventsAt_token_placedAt hlong l
      | cons sep seps =>
          have htail : seps.length = ts.length - 1 := by
            rw [← hlen, List.length_cons, Nat.add_sub_cancel]
          have hevents := ih ((l.after t.lexeme.toList).after sep.toList) hrest htail
            fun s hs => hseps s (List.mem_cons_of_mem sep hs)
          have htext : (weave ((t :: ts).map Token.lexeme) (sep :: seps)).toList =
              t.lexeme.toList ++ (sep.toList ++ (weave (ts.map Token.lexeme) seps).toList) := by
            simp [weave]
          rw [htext, eventsAt_token_separated ht (hseps sep List.mem_cons_self), hevents]
          rfl

/-! ## Scanning what was printed -/

/-- The token `u` is `t` once more, in a source that has its lexeme behind `before`. -/
structure Token.Again (t u : Token) (source before : String) : Prop where
  kind : u.kind = t.kind
  lexeme : u.lexeme = t.lexeme
  literal : u.literal = t.literal
  put : ∃ after, source = before ++ t.lexeme ++ after
  first : u.span.first = before.utf8ByteSize
  last : u.span.last = (before ++ t.lexeme).utf8ByteSize
  line : u.line = 1 + (before ++ t.lexeme).toList.count '\n'

/-- The scan of a printed source gives the tokens back, each at its place, and nothing else. -/
structure Reprinted (ts : List Token) (seps : List String) (source : String) : Prop where
  clean : (scan source).diagnostics.toList = []
  length : (scan source).tokens.length = ts.length + 1
  token : ∀ i (t : Token), ts[i]? = some t → ∃ u, (scan source).tokens[i]? = some u ∧
    t.Again u source (weave ((ts.map Token.lexeme).take i) (seps.take i))
  eof : ∃ u, (scan source).tokens[ts.length]? = some u ∧ u.kind = .eof
  determined : ∀ t ∈ ts, ∀ other, ∀ u ∈ (scan other).lexemes, u.lexeme = t.lexeme →
    u.kind = t.kind ∧ u.literal = t.literal

theorem tokensOf_map_token (ts : List Token) : tokensOf (ts.map Event.token) = ts := by
  induction ts with
  | nil => rfl
  | cons t ts ih => rw [List.map_cons, tokensOf_token, ih]

theorem diagnosticsOf_map_token (ts : List Token) : diagnosticsOf (ts.map Event.token) = [] := by
  induction ts with
  | nil => rfl
  | cons t ts ih => rw [List.map_cons, diagnosticsOf_token, ih]

theorem lexeme_of_mem_lexemes {source : String} {t : Token} (h : t ∈ (scan source).lexemes) :
    Lexeme (.token t.kind t.lexeme.toList t.literal) := by
  rw [lexemes_scan] at h
  exact lexeme_of_mem h

theorem Token.again_placedAt {t : Token} {source before after : String}
    (hput : source = before ++ t.lexeme ++ after) (hsize : source.utf8ByteSize ≤ 4294967295) :
    t.Again (t.placedAt (Location.start.after before.toList)) source before := by
  have hoffset : ((Location.start.after before.toList).after t.lexeme.toList).offset =
      (before ++ t.lexeme).utf8ByteSize := by
    rw [← Location.after_append, ← String.toList_append, offset_after_toList]
  have hfits : ((Location.start.after before.toList).after t.lexeme.toList).offset ≤
      4294967295 := by
    rw [hput, String.utf8ByteSize_append] at hsize
    rw [hoffset]
    omega
  exact
    { kind := rfl, lexeme := rfl, literal := rfl, put := ⟨after, hput⟩
      first := (Location.first_spanOf hfits).trans (offset_after_toList before)
      last := (Location.last_spanOf hfits).trans hoffset
      line := by rw [String.toList_append, List.count_append, ← Nat.add_assoc]; rfl }

/-- Lexemes of any tokens with blanks between neighbours are scanned as these tokens. -/
theorem scan_weave (ts : List Token) (seps : List String)
    (hts : ∀ t ∈ ts, ∃ source, t ∈ (scan source).lexemes) (hlen : seps.length = ts.length - 1)
    (hseps : ∀ sep ∈ seps, Separates sep)
    (hsize : (weave (ts.map Token.lexeme) seps).utf8ByteSize ≤ 4294967295) :
    Reprinted ts seps (weave (ts.map Token.lexeme) seps) := by
  have hlexemes : ∀ t ∈ ts, Lexeme (.token t.kind t.lexeme.toList t.literal) := fun t ht =>
    (hts t ht).elim fun _ => lexeme_of_mem_lexemes
  have hevents : events (weave (ts.map Token.lexeme) seps) =
      (placed .start ts seps).map Event.token := eventsAt_weave .start hlexemes hlen hseps
  have htokens := tokens_scan (weave (ts.map Token.lexeme) seps)
  rw [hevents, tokensOf_map_token] at htokens
  refine
    { clean := ?clean, length := ?length, token := ?token, eof := ?eof
      determined := ?determined }
  case clean => rw [diagnostics_scan, hevents, diagnosticsOf_map_token]
  case length => rw [htokens, List.length_append, length_placed, List.length_singleton]
  case token =>
    intro i t ht
    have hplaced := getElem?_placed (l := .start) ht seps
    have hlexeme : (ts.map Token.lexeme)[i]? = some t.lexeme := by
      rw [List.getElem?_map, ht, Option.map_some]
    obtain ⟨after, hput⟩ := weave_eq_append hlexeme seps
    refine ⟨_, ?_, Token.again_placedAt hput hsize⟩
    rw [htokens, List.getElem?_append_left (List.getElem?_eq_some_iff.1 hplaced).1, hplaced]
  case eof =>
    rw [htokens, ← length_placed .start ts seps, List.getElem?_concat_length]
    exact ⟨_, rfl, rfl⟩
  case determined =>
    intro t ht other u hu hsame
    have hpiece := (lexeme_of_mem_lexemes hu).ext (hlexemes t ht) (congrArg String.toList hsame)
    obtain ⟨hkind, _, hliteral⟩ := Piece.token.inj hpiece
    exact ⟨hkind, hliteral⟩

/-- A string with a comment and a line in it, a slash, a bang, a dot and a number, which touch each
other in their source, printed the other way round. -/
theorem scan_weave_reversed :
    weave ((scan "1.!/\"a //\nb\"").lexemes.reverse.map Token.lexeme) [" ", "\t", "\r\n", "\n"] =
        "\"a //\nb\" /\t!\r\n.\n1" ∧
      Reprinted (scan "1.!/\"a //\nb\"").lexemes.reverse [" ", "\t", "\r\n", "\n"]
        "\"a //\nb\" /\t!\r\n.\n1" := by
  have hweave : weave ((scan "1.!/\"a //\nb\"").lexemes.reverse.map Token.lexeme)
      [" ", "\t", "\r\n", "\n"] = "\"a //\nb\" /\t!\r\n.\n1" := by decide +kernel
  refine ⟨hweave, ?_⟩
  rw [← hweave]
  refine scan_weave _ _ (fun t ht => ⟨_, List.mem_reverse.1 ht⟩) ?_ ?_ ?_
  · decide +kernel
  · decide +kernel
  · rw [hweave]
    decide

end LoxLexer
