import LoxLexer.Proofs.Blanks
import LoxLexer.Proofs.Delimited
import LoxLexer.Report.Tokens
import Mathlib.Data.List.Forall2

/-!
# Token lines can be read back

A line of the text report has no escapes, and a string puts its own blanks and line feeds into it.
Still a line shows its token: the kind has no blank, and the lexeme is the longest one in front of
the blank behind it. The token that ends a text parts the reports of many sources.
-/

namespace LoxLexer

/-! ## What a report shows of a token -/

structure Shown where
  kind : Kind
  lexeme : String
  literal : Literal
deriving DecidableEq

def Token.shown (t : Token) : Shown := ⟨t.kind, t.lexeme, t.literal⟩

def Scan.shown (s : Scan) : List Shown := s.tokens.map Token.shown

namespace Shown

/-- What is shown of the token at the end of a text. -/
def ending : Shown := ⟨.eof, "", .absent⟩

/-- Tokens are lexemes, but for those that end a text. -/
inductive Scanned : Shown → Prop
  | lexeme {s : Shown} (h : Lexeme (.token s.kind s.lexeme.toList s.literal)) : Scanned s
  | ending : Scanned ending

namespace Scanned

variable {s t : Shown}

/-- Two tokens of one kind are both lexemes, or both end a text. -/
theorem alike (hs : s.Scanned) (ht : t.Scanned) (hkind : s.kind = t.kind) :
    Lexeme (.token s.kind s.lexeme.toList s.literal) ∧
      Lexeme (.token t.kind t.lexeme.toList t.literal) ∨ s = t := by
  cases hs with
  | lexeme hs =>
      cases ht with
      | lexeme ht => exact .inl ⟨hs, ht⟩
      | ending => exact absurd hkind hs.kind_ne_eof
  | ending =>
      cases ht with
      | lexeme ht => exact absurd hkind.symm ht.kind_ne_eof
      | ending => exact .inr rfl

/-- The kind and the lexeme show the literal. -/
theorem ext (hs : s.Scanned) (ht : t.Scanned) (hkind : s.kind = t.kind)
    (hlexeme : s.lexeme = t.lexeme) : s = t := by
  rcases hs.alike ht hkind with ⟨hs, ht⟩ | heq
  · obtain ⟨_, _, hliteral⟩ := Piece.token.inj (hs.ext ht (congrArg String.toList hlexeme))
    cases s
    cases t
    simp_all
  · exact heq

end Scanned

end Shown

theorem shown_scan (source : String) :
    (scan source).shown = (tokensOf (events source)).map Token.shown ++ [.ending] := by
  simp [Scan.shown, tokens_scan, Token.shown, Token.eof, Shown.ending]

theorem ending_not_mem (source : String) :
    Shown.ending ∉ (tokensOf (events source)).map Token.shown := by
  intro hmem
  obtain ⟨t, ht, hshown⟩ := List.mem_map.1 hmem
  exact (lexeme_of_mem ht).kind_ne_eof (congrArg Shown.kind hshown)

theorem scanned_shown {source : String} {s : Shown} (h : s ∈ (scan source).shown) : s.Scanned := by
  rw [shown_scan] at h
  rcases List.mem_append.1 h with h | h
  · obtain ⟨t, ht, rfl⟩ := List.mem_map.1 h
    exact .lexeme (lexeme_of_mem ht)
  · cases List.mem_singleton.1 h
    exact .ending

/-! ## Lines -/

namespace Kind

theorem ofName?_name (k : Kind) : ofName? k.name = some k := by
  cases k with
  | keyword word => cases word <;> decide
  | _ => decide

theorem name_injective {a b : Kind} (h : a.name = b.name) : a = b :=
  Option.some.inj (by rw [← ofName?_name a, h, ofName?_name b])

theorem space_not_mem_name (k : Kind) : ' ' ∉ k.name.toList := by
  cases k with
  | keyword word => cases word <;> decide
  | _ => decide

end Kind

namespace Shown

def line (s : Shown) : List Char :=
  s.kind.name.toList ++
    ' ' :: (s.lexeme.toList ++ ' ' :: (s.literal.display.toList ++ ['\n']))

theorem line_ne_nil (s : Shown) : s.line ≠ [] := by simp [line]

/-- A line shows its token and where the line ends. -/
theorem Scanned.delimited {s t : Shown} (hs : s.Scanned) (ht : t.Scanned) :
    Delimited line Anything s t := by
  intro xs ys _ _ h
  -- It is enough to tell the tokens, for their lines are then the same and can be taken off.
  suffices heq : s = t by
    subst heq
    exact ⟨rfl, List.append_cancel_left h⟩
  simp only [line, List.append_assoc, List.cons_append] at h
  obtain ⟨hname, hrest⟩ := mark_cut s.kind.space_not_mem_name t.kind.space_not_mem_name h
  have hkind := Kind.name_injective (String.toList_inj.1 hname)
  rcases hs.alike ht hkind with ⟨hs', ht'⟩ | heq
  · -- Both lexemes are the longest one in front of the same text.
    have hlongest {u : Shown} (hu : Lexeme (.token u.kind u.lexeme.toList u.literal))
        (after : List Char) : Longest (.token u.kind u.lexeme.toList u.literal)
          (u.lexeme.toList ++ ' ' :: after) :=
      hu.longest.append_blank (by decide) (.inr hu.not_slashes) after
    have hpiece := (hlongest hs' _).unique (hrest ▸ hlongest ht' _)
    exact hs.ext ht hkind (String.toList_inj.1 (Piece.token.inj hpiece).2.1)
  · exact heq

end Shown

/-! ## Reports -/

theorem Scan.toList_tokenLines (s : Scan) : s.tokenLines.toList = s.shown.flatMap Shown.line := by
  simp [tokenLines, shown, Token.shown, Shown.line, Token.display, String.toList_join,
    List.flatMap_map]

/-- What is shown of some scan. -/
def OfScan (a : List Shown) : Prop := ∃ source, a = (scan source).shown

namespace OfScan

variable {a b : List Shown}

theorem scanned (h : OfScan a) {s : Shown} (hs : s ∈ a) : s.Scanned := by
  obtain ⟨source, rfl⟩ := h
  exact scanned_shown hs

theorem ne_nil (h : OfScan a) : a ≠ [] := by
  obtain ⟨source, rfl⟩ := h
  simp [shown_scan]

/-- What is shown of scans is parted by the tokens that end the texts. -/
theorem delimited (ha : OfScan a) (hb : OfScan b) : Delimited id Anything a b := by
  obtain ⟨source, rfl⟩ := ha
  obtain ⟨source', rfl⟩ := hb
  intro xs ys _ _ h
  simp only [shown_scan, id_eq, List.append_assoc, List.singleton_append] at h ⊢
  obtain ⟨hshown, hrest⟩ := mark_cut (ending_not_mem source) (ending_not_mem source') h
  exact ⟨by rw [hshown], hrest⟩

end OfScan

/-- The lines of scans, one after the other, show scan by scan what the lines show. -/
theorem lines_injective {as bs : List (List Shown)} (has : ∀ a ∈ as, OfScan a)
    (hbs : ∀ b ∈ bs, OfScan b)
    (h : as.flatten.flatMap Shown.line = bs.flatten.flatMap Shown.line) : as = bs := by
  have hscanned {cs : List (List Shown)} (hcs : ∀ c ∈ cs, OfScan c) :
      ∀ s ∈ cs.flatten, s.Scanned := by
    intro s hs
    obtain ⟨c, hc, hs⟩ := List.mem_flatten.1 hs
    exact (hcs c hc).scanned hs
  have hflat : as.flatten = bs.flatten :=
    Delimited.flatMap_injective (fun s hs t ht => (hscanned has s hs).delimited (hscanned hbs t ht))
      (fun s _ => s.line_ne_nil) (fun t _ => t.line_ne_nil) h
  exact Delimited.flatMap_injective (fun a ha b hb => (has a ha).delimited (hbs b hb))
    (fun a ha => (has a ha).ne_nil) (fun b hb => (hbs b hb).ne_nil) (by simpa using hflat)

/-- The text reports of named sources, one after the other. -/
def textReports (sources : List (String × String)) : Except Fault String :=
  String.join <$> sources.mapM fun p => (scan p.2).tokenReport .text p.1 p.2

/-- Nothing but what is shown of the scans goes into the reports. -/
theorem textReports_eq (sources : List (String × String)) :
    textReports sources =
      .ok (.ofList ((sources.map fun p => (scan p.2).shown).flatten.flatMap Shown.line)) := by
  have hreports : sources.mapM (fun p => (scan p.2).tokenReport .text p.1 p.2) =
      (pure (sources.map fun p => (scan p.2).tokenLines) : Except Fault (List String)) :=
    List.mapM_pure
  have hjoin : String.join (sources.map fun p => (scan p.2).tokenLines) =
      .ofList ((sources.map fun p => (scan p.2).shown).flatten.flatMap Shown.line) := by
    apply String.toList_inj.1
    simp [String.toList_join, List.flatMap_map, List.flatMap_assoc, Scan.toList_tokenLines,
      ← List.flatMap_def]
  rw [textReports, hreports, ← hjoin]
  rfl

/-- The text reports of some sources, one after the other, show how many sources there are and, of
each, the kinds, the lexemes and the literals of its tokens. -/
theorem textReports_unambiguous (a b : List (String × String)) :
    (∃ text, textReports a = .ok text) ∧
      ((textReports a).map String.toUTF8 = (textReports b).map String.toUTF8 ↔
        List.Forall₂ (fun p q => (scan p.2).shown = (scan q.2).shown) a b) := by
  refine ⟨⟨_, textReports_eq a⟩, ?_⟩
  have hsame : List.Forall₂ (fun p q => (scan p.2).shown = (scan q.2).shown) a b ↔
      a.map (fun p => (scan p.2).shown) = b.map fun p => (scan p.2).shown := by
    rw [← @List.forall₂_eq_eq_eq (List Shown), List.forall₂_map_left_iff,
      List.forall₂_map_right_iff]
  have hscans (sources : List (String × String)) :
      ∀ c ∈ sources.map fun p => (scan p.2).shown, OfScan c := by
    intro c hc
    obtain ⟨p, _, rfl⟩ := List.mem_map.1 hc
    exact ⟨p.2, rfl⟩
  simp only [hsame, textReports_eq, Except.map, Except.ok.injEq, String.toUTF8_eq_toByteArray,
    String.toByteArray_inj, String.ofList_inj]
  constructor
  · intro h
    exact lines_injective (hscans a) (hscans b) h
  · intro h
    rw [h]

end LoxLexer
