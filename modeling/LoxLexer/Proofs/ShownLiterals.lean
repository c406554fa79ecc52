import LoxLexer.Proofs.Documents
import LoxLexer.Proofs.JsonNumbers
import LoxLexer.Proofs.Overflow

/-!
# Literals in JSON

The record of a token shows its literal: a string as a string and a number as a number, and null for
every other token. But a number that is too great is shown as null as well (`ShowsLiteral`).
-/

namespace LoxLexer

/-! ## The literals of a report -/

namespace Json

def member? (key : String) : Json → Option Json
  | .object members => members.lookup key
  | _ => none

def items : Json → List Json
  | .list items => items
  | _ => []

/-- What the records of the tokens have as their literals. -/
def literals (report : Json) : List (Option Json) :=
  (((report.member? "tokens").map items).getD []).map (member? "literal")

end Json

theorem literals_record (s : Scan) :
    s.record.literals = s.tokens.map fun t => some t.literal.record := by
  have hliterals : s.record.literals = (s.tokens.map Token.record).map (Json.member? "literal") :=
    rfl
  rw [hliterals, List.map_map]
  rfl

theorem literals_documentOf (name : String) {ts : List Token} {records : List Json}
    (h : List.Forall₂ RecordOf ts records) (c : Collection) :
    (documentOf name records c).literals = ts.map fun t => some t.literal.record := by
  have hliterals : (documentOf name records c).literals = records.map (Json.member? "literal") :=
    rfl
  rw [hliterals]
  induction h with
  | nil => rfl
  | cons ht _ ih =>
      obtain ⟨column, rfl⟩ := ht
      rw [List.map_cons, ih rfl]
      rfl

/-! ## Literals that can be seen -/

/-- The value is null just if the token is neither a string nor a number, and otherwise of the same
sort as the token. -/
structure Visible (t : Token) (value : Json) : Prop where
  null : value = .null ↔ t.kind ≠ .string ∧ t.kind ≠ .number
  string : t.kind = .string →
    ∃ body, t.lexeme.toList = '"' :: body ++ ['"'] ∧ value = .string (.ofList body)
  number : t.kind = .number → ∃ text, value = .number text ∧ Json.IsNumber text.toList

/-- The digits of the token stand for a number that is not less than the limit. -/
def Token.TooGreat (t : Token) : Prop :=
  t.kind = .number ∧ ∃ n : Numeral, n.whole ≠ [] ∧ (∀ c ∈ n.whole ++ n.fraction, IsDigit c) ∧
    t.lexeme.toList = n.text ∧ n.Overflows

/-- The literal can be seen, unless it is too great. -/
inductive ShowsLiteral (t : Token) : Option Json → Prop
  | visible {value : Json} (h : ¬t.TooGreat) (hvisible : Visible t value) :
      ShowsLiteral t (some value)
  | hidden (h : t.TooGreat) : ShowsLiteral t (some .null)

namespace ShowsLiteral

variable {t : Token}

/-- Marks and words, and the end of the source, have no literal. -/
theorem of_absent (hstring : t.kind ≠ .string) (hnumber : t.kind ≠ .number)
    (habsent : t.literal = .absent) : ShowsLiteral t (some t.literal.record) := by
  refine .visible (fun hgreat => hnumber hgreat.1) ⟨?_, ?_, ?_⟩
  · rw [habsent]
    exact iff_of_true rfl ⟨hstring, hnumber⟩
  · exact fun h => absurd h hstring
  · exact fun h => absurd h hnumber

theorem of_string (hkind : t.kind = .string) {body : List Char}
    (hlexeme : t.lexeme.toList = '"' :: body ++ ['"']) (htext : t.literal = .text (.ofList body)) :
    ShowsLiteral t (some t.literal.record) := by
  rw [htext]
  refine .visible (fun hgreat => nomatch hkind.symm.trans hgreat.1) ⟨?_, ?_, ?_⟩
  · exact iff_of_false nofun fun h => h.1 hkind
  · exact fun _ => ⟨body, hlexeme, rfl⟩
  · exact fun h => nomatch hkind.symm.trans h

/-- The digits of a number decide its value, so one numeral with these digits is as good as any. -/
theorem of_number (hkind : t.kind = .number) {n : Numeral} (hwhole : n.whole ≠ [])
    (hdigits : ∀ c ∈ n.whole ++ n.fraction, IsDigit c) (hlexeme : t.lexeme.toList = n.text)
    (hvalue : t.literal = .number n.value) : ShowsLiteral t (some t.literal.record) := by
  rw [hvalue, Literal.record, Json.ofBinary64]
  split
  · rename_i hfinite
    have hsmall : ¬t.TooGreat := by
      rintro ⟨_, m, hwhole', hdigits', hlexeme', hover⟩
      have hpiece := (Lexeme.number hwhole hdigits).ext (.number hwhole' hdigits')
        (hlexeme.symm.trans hlexeme')
      obtain ⟨_, _, hsame⟩ := Piece.token.inj hpiece
      rw [Literal.number.inj hsame, Numeral.isFinite_value_iff] at hfinite
      exact hfinite hover
    refine .visible hsmall ⟨?_, ?_, ?_⟩
    · exact iff_of_false nofun fun h => h.2 hkind
    · exact fun h => nomatch hkind.symm.trans h
    · exact fun _ => ⟨_, rfl, Json.isNumber_write _ hfinite⟩
  · rename_i hinfinite
    rw [Numeral.isFinite_value_iff, not_not] at hinfinite
    exact .hidden ⟨hkind, n, hwhole, hdigits, hlexeme, hinfinite⟩

theorem of_lexeme (h : Lexeme (.token t.kind t.lexeme.toList t.literal)) :
    ShowsLiteral t (some t.literal.record) := by
  rcases h.literal_cases with ⟨hkind, body, _, hlexeme, htext⟩ |
    ⟨hkind, n, hwhole, hdigits, hlexeme, hvalue⟩ | ⟨hstring, hnumber, habsent⟩
  · exact of_string hkind hlexeme htext
  · exact of_number hkind hwhole hdigits hlexeme hvalue
  · exact of_absent hstring hnumber habsent

end ShowsLiteral

theorem ShowsLiteral.of_mem {source : String} {t : Token} (h : t ∈ (scan source).tokens) :
    ShowsLiteral t (some t.literal.record) := by
  rw [tokens_scan] at h
  rcases List.mem_append.1 h with h | h
  · exact .of_lexeme (lexeme_of_mem h)
  · cases List.mem_singleton.1 h
    exact .of_absent nofun nofun rfl

theorem forall₂_showsLiteral (source : String) :
    List.Forall₂ ShowsLiteral (scan source).tokens
      ((scan source).tokens.map fun t => some t.literal.record) := by
  rw [List.forall₂_map_right_iff, List.forall₂_same]
  exact fun t ht => .of_mem ht

/-- Every token of a scan has its literal in the record of the scan and in every document. Only a
number that is too great is shown as null although it is there. -/
theorem scan_showsLiterals (name source : String) :
    List.Forall₂ ShowsLiteral (scan source).tokens (scan source).record.literals ∧
      (∀ document, (scan source).document name source = .ok document →
        List.Forall₂ ShowsLiteral (scan source).tokens document.literals) ∧
      (source.utf8ByteSize < 4294967295 →
        ∃ document, (scan source).document name source = .ok document) := by
  refine ⟨?_, fun document hdocument => ?_, fun h => ?_⟩
  · rw [literals_record]
    exact forall₂_showsLiteral source
  · obtain ⟨records, hrecords, rfl⟩ := document_eq_documentOf hdocument
    rw [literals_documentOf name hrecords]
    exact forall₂_showsLiteral source
  · obtain ⟨records, _, hdocument⟩ := exists_document name h
    exact ⟨_, hdocument⟩

/-! ## A number that cannot be seen -/

theorem Visible.ne_null {t : Token} {value : Json} (h : Visible t value) (hkind : t.kind = .number) :
    value ≠ .null := fun hnull => (h.null.1 hnull).2 hkind

/-- A source that is one lexeme. -/
theorem shown_lexeme {source : String} {kind : Kind} {literal : Literal}
    (h : Lexeme (.token kind source.toList literal)) :
    (scan source).shown = [⟨kind, source, literal⟩, .ending] := by
  have hlong : Longest (.token kind source.toList literal) (source.toList ++ []) := by
    rw [List.append_nil]
    exact h.longest
  have hevents := eventsAt_token hlong .start
  rw [List.append_nil, eventsAt_nil, String.ofList_toList] at hevents
  have hsource : events source = eventsAt .start source.toList := rfl
  rw [shown_scan, hsource, hevents]
  rfl

/-- The source is a number, and nothing is shown of it. -/
structure Hidden (name source : String) : Prop where
  kinds : (scan source).kinds = [.number, .eof]
  record : (scan source).record.literals = [some .null, some .null]
  document : ∃ document, (scan source).document name source = .ok document ∧
    document.literals = [some .null, some .null]
  not_visible : ∀ t ∈ (scan source).tokens, t.kind = .number → ¬Visible t .null

theorem Hidden.of_numeral (name : String) {source : String} {n : Numeral} (hwhole : n.whole ≠ [])
    (hdigits : ∀ c ∈ n.whole ++ n.fraction, IsDigit c) (hsource : source.toList = n.text)
    (hover : n.Overflows) (hsize : source.utf8ByteSize < 4294967295) : Hidden name source := by
  have hlexeme : Lexeme (.token .number source.toList (.number n.value)) :=
    hsource ▸ .number hwhole hdigits
  have hshown := shown_lexeme hlexeme
  have hrecord : (Literal.number n.value).record = .null := by
    have hinfinite : ¬n.value.isFinite = true := fun h => n.isFinite_value_iff.1 h hover
    rw [Literal.record, Json.ofBinary64, if_neg hinfinite]
  have hnull : ((scan source).tokens.map fun t => some t.literal.record) =
      [some .null, some .null] := by
    have hmap := congrArg (List.map fun s => some s.literal.record) hshown
    rw [Scan.shown, List.map_map] at hmap
    refine hmap.trans ?_
    simp only [List.map_cons, hrecord]
    rfl
  obtain ⟨records, hrecords, hdocument⟩ := exists_document name hsize
  refine ⟨?_, ?_, ⟨_, hdocument, ?_⟩, fun t _ hkind hvisible => hvisible.ne_null hkind rfl⟩
  · have hmap := congrArg (List.map Shown.kind) hshown
    rwa [Scan.shown, List.map_map] at hmap
  · rw [literals_record, hnull]
  · rw [literals_documentOf _ hrecords, hnull]

/-- A one with so many zeros behind it. -/
theorem hidden_zeros : Hidden "a.lox" (.ofList ('1' :: List.replicate 309 '0')) := by
  have hdigits : ∀ c ∈ '1' :: List.replicate 309 '0' ++ [], IsDigit c := by
    rw [List.append_nil, List.forall_mem_cons]
    exact ⟨by decide, fun c hc => List.eq_of_mem_replicate hc ▸ Json.isDigit_zero⟩
  exact .of_numeral "a.lox" (n := ⟨'1' :: List.replicate 309 '0', []⟩) (List.cons_ne_nil _ _) hdigits
    (String.toList_ofList ..) (by decide +kernel) (by decide +kernel)

end LoxLexer
