import LoxLexer.Proofs.Columns
import LoxLexer.Proofs.Partition
import LoxLexer.Report.Diagnostics
import LoxLexer.Report.Tokens
import Mathlib.Data.List.Forall2

/-!
# Reports are complete

Every position that is not the last one has a place, so every token of a source that is not too long
has a column, and a report in either format can be written (`exists_tokenReport`). A plain report
has a line for each diagnostic (`diagnosticReport_plain`).
-/

namespace LoxLexer

/-! ## Places -/

namespace LineMap

theorem exists_lineStart (text : String) (n : Nat) :
    ∃ b ∈ offsets text, b ≤ n ∧ ∀ t ∈ offsets text, t ≤ n → t ≤ b := by
  have hzero : 0 ∈ (offsets text).filter (· ≤ n) := by simp [offsets]
  cases hmax : ((offsets text).filter (· ≤ n)).max? with
  | none =>
      rw [List.max?_eq_none_iff.1 hmax] at hzero
      exact absurd hzero List.not_mem_nil
  | some b =>
      obtain ⟨hb, hgreatest⟩ := List.max?_eq_some_iff.1 hmax
      simp only [List.mem_filter, decide_eq_true_eq, and_imp] at hb hgreatest
      exact ⟨b, hb.1, hb.2, hgreatest⟩

/-- Only the last position can be without a place. -/
theorem exists_place {text : String} (h : text.utf8ByteSize ≤ 4294967295) {pos : Position}
    (hpos : pos.toNat < 4294967295) :
    ∃ column, (ofText text).place pos = .ok ⟨(ofText text).lineOf pos, column⟩ := by
  obtain ⟨b, hb, hle, hmax⟩ := exists_lineStart text pos.toNat
  have hcount := lineFeeds_le text 0 pos.toNat
  refine ⟨.ofOffset (pos.toNat - b + 1), ?_⟩
  rw [place_eq h hb hle hmax, lineOf_ofText h, if_pos (by omega)]

end LineMap

/-! ## Documents -/

section

variable {α β : Type} {as : List α} {bs : List β}

theorem exists_forall₂ {R : α → β → Prop} (h : ∀ a ∈ as, ∃ b, R a b) :
    ∃ bs, List.Forall₂ R as bs := by
  induction as with
  | nil => exact ⟨[], .nil⟩
  | cons a as ih =>
      obtain ⟨b, hb⟩ := h a List.mem_cons_self
      obtain ⟨bs, hbs⟩ := ih fun c hc => h c (List.mem_cons_of_mem a hc)
      exact ⟨b :: bs, .cons hb hbs⟩

theorem mapM_eq_ok {ε : Type} {f : α → Except ε β} (h : List.Forall₂ (f · = .ok ·) as bs) :
    as.mapM f = .ok bs := by
  induction h with
  | nil => rfl
  | cons hb _ ih =>
      rw [List.mapM_cons, hb, ih]
      rfl

theorem exists_of_bind_eq_ok {ε : Type} {x : Except ε α} {f : α → Except ε β} {b : β}
    (h : x >>= f = .ok b) : ∃ a, x = .ok a ∧ f a = .ok b := by
  cases x with
  | error e => cases h
  | ok a => exact ⟨a, rfl, h⟩

theorem forall₂_of_mapM_eq_ok {ε : Type} {f : α → Except ε β} (h : as.mapM f = .ok bs) :
    List.Forall₂ (f · = .ok ·) as bs := by
  induction as generalizing bs with
  | nil =>
      cases h
      exact .nil
  | cons a as ih =>
      rw [List.mapM_cons] at h
      obtain ⟨b, hb, h⟩ := exists_of_bind_eq_ok h
      obtain ⟨rest, hrest, h⟩ := exists_of_bind_eq_ok h
      cases h
      exact .cons hb (ih hrest)

theorem mapM_concat_error {ε : Type} {f : α → Except ε β} {a : α} {e : ε}
    (h : ∀ b ∈ as, ∃ c, f b = .ok c) (ha : f a = .error e) : (as ++ [a]).mapM f = .error e := by
  obtain ⟨bs, hbs⟩ := exists_forall₂ h
  rw [List.mapM_append, mapM_eq_ok hbs, List.mapM_cons, ha]
  rfl

end

theorem first_le_of_mem {source : String} (h : source.utf8ByteSize ≤ 4294967295) {t : Token}
    (ht : t ∈ (scan source).tokens) : t.span.first ≤ source.utf8ByteSize := by
  rw [tokens_scan] at ht
  rcases List.mem_append.1 ht with ht | ht
  · obtain ⟨_, _, hholds⟩ := (tiling_events h).holds (mem_tokensOf ht)
    exact hholds.start_valid.le_utf8ByteSize
  · cases List.mem_singleton.1 ht
    rw [offset_after_toList, Token.first_eof h]

/-- A record of a token, with some column. -/
def RecordOf (t : Token) (record : Json) : Prop := ∃ column, record = t.recordAt column

def documentOf (name : String) (records : List Json) (c : Collection) : Json :=
  .object [("name", .string name), ("tokens", .list records), ("diagnostics", c.record)]

/-- If every token has a place, the document of the scan has a record for each of them. -/
theorem exists_document_of_places (name : String) {source : String}
    (h : ∀ t ∈ (scan source).tokens, ∃ p, (LineMap.ofText source).place t.span.start = .ok p) :
    ∃ records, List.Forall₂ RecordOf (scan source).tokens records ∧
      (scan source).document name source =
        .ok (documentOf name records (scan source).diagnostics) := by
  have hrecords : ∀ t ∈ (scan source).tokens, ∃ r,
      (do
        let place ← (LineMap.ofText source).place t.span.start
        return t.recordAt place.column : Except Fault Json) = .ok r ∧ RecordOf t r := by
    intro t ht
    obtain ⟨p, hplace⟩ := h t ht
    exact ⟨t.recordAt p.column, by rw [hplace]; rfl, p.column, rfl⟩
  obtain ⟨records, hall⟩ := exists_forall₂ hrecords
  refine ⟨records, hall.imp fun _ _ h => h.2, ?_⟩
  simp only [Scan.document]
  rw [mapM_eq_ok (hall.imp fun _ _ h => h.1)]
  rfl

theorem exists_document (name : String) {source : String} (h : source.utf8ByteSize < 4294967295) :
    ∃ records, List.Forall₂ RecordOf (scan source).tokens records ∧
      (scan source).document name source =
        .ok (documentOf name records (scan source).diagnostics) := by
  refine exists_document_of_places name fun t ht => ?_
  have hfirst := first_le_of_mem (Nat.le_of_lt h) ht
  obtain ⟨column, hplace⟩ := LineMap.exists_place (Nat.le_of_lt h) (Nat.lt_of_le_of_lt hfirst h)
  exact ⟨_, hplace⟩

/-- No other documents are written. -/
theorem document_eq_documentOf {s : Scan} {name source : String} {document : Json}
    (h : s.document name source = .ok document) :
    ∃ records, List.Forall₂ RecordOf s.tokens records ∧
      document = documentOf name records s.diagnostics := by
  obtain ⟨records, hrecords, h⟩ := exists_of_bind_eq_ok h
  cases h
  refine ⟨records, (forall₂_of_mapM_eq_ok hrecords).imp fun t record hrecord => ?_, rfl⟩
  obtain ⟨place, _, hrecord⟩ := exists_of_bind_eq_ok hrecord
  cases hrecord
  exact ⟨place.column, rfl⟩

theorem jsonReport_eq {name source : String} {document : Json}
    (h : (scan source).document name source = .ok document) :
    (scan source).tokenReport .json name source = .ok (document.pretty ++ "\n") := by
  rw [Scan.tokenReport, h]
  rfl

theorem exists_jsonReport (name : String) {source : String} (h : source.utf8ByteSize < 4294967295) :
    ∃ records, List.Forall₂ RecordOf (scan source).tokens records ∧
      (scan source).tokenReport .json name source =
        .ok ((documentOf name records (scan source).diagnostics).pretty ++ "\n") := by
  obtain ⟨records, hrecords, hdocument⟩ := exists_document name h
  exact ⟨records, hrecords, jsonReport_eq hdocument⟩

theorem exists_tokenReport (format : Format) (name : String) {source : String}
    (h : source.utf8ByteSize < 4294967295) :
    ∃ text, (scan source).tokenReport format name source = .ok text := by
  cases format with
  | text => exact ⟨_, rfl⟩
  | json =>
      obtain ⟨_, _, hreport⟩ := exists_jsonReport name h
      exact ⟨_, hreport⟩

/-! ## Diagnostics -/

/-- The line that tells of a diagnostic. -/
def Diagnostic.told (d : Diagnostic) : String :=
  "[line " ++ toString d.line ++ "] Error: " ++ d.message ++ "\n"

theorem Diagnostic.report_plain (d : Diagnostic) (name source : String) :
    d.report .plain name source = d.told := by
  have hcategory : d.category.name = "Error" := by cases d.category; rfl
  simp [report, display, told, hcategory, String.append_assoc]

theorem Scan.diagnosticReport_plain (s : Scan) (name source : String) :
    s.diagnosticReport .plain name source = .join (s.diagnostics.toList.map Diagnostic.told) := by
  rw [diagnosticReport]
  exact congrArg String.join (List.map_congr_left fun d _ => d.report_plain name source)

end LoxLexer
