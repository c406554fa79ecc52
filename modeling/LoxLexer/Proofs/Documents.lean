import LoxLexer.Proofs.JsonText
import LoxLexer.Proofs.Reports
import LoxLexer.Proofs.TokenLines

/-!
# Documents lose nothing

The document of a scan is written as a proper JSON value, and its records show the tokens and the
diagnostics of the scan. A literal is written as nothing both if there is none and if it is not
finite; still the kind and the lexeme show it.
-/

namespace LoxLexer

namespace Json

theorem ofNat_injective {m n : Nat} (h : ofNat m = ofNat n) : m = n := by
  simp only [ofNat, number.injEq, Nat.toString_eq_ofList_toDigits, String.ofList_inj] at h
  exact toDigits_injective h

theorem proper_ofNat (n : Nat) : Proper (ofNat n) := .number (isNumeral_toString n)

theorem proper_ofBinary64 (x : Binary64) : Proper (ofBinary64 x) := by
  unfold ofBinary64
  split
  · rename_i hfinite
    exact .number (isNumeral_write numbers hfinite)
  · exact .null

end Json

open Json

/-! ## Records are proper -/

theorem Span.proper_record (s : Span) : Proper s.record :=
  .object (by simp [proper_ofNat])

theorem Literal.proper_record (l : Literal) : Proper l.record := by
  cases l with
  | absent => exact .null
  | text value => exact .string value
  | number value => exact proper_ofBinary64 value

theorem Token.proper_recordAt (t : Token) (column : Position) : Proper (t.recordAt column) :=
  .object (by
    simp [members, Kind.record, proper_ofNat, Span.proper_record, Literal.proper_record,
      Proper.string])

theorem Diagnostic.proper_record (d : Diagnostic) : Proper d.record := by
  have hspan : Proper (ofOption Span.record d.span) := by
    cases d.span with
    | none => exact .null
    | some s => exact s.proper_record
  exact .object (by simp [proper_ofNat, hspan, Proper.string])

theorem Collection.proper_record (c : Collection) : Proper c.record :=
  .list (by simp [Diagnostic.proper_record])

/-! ## Records show what they are made from -/

theorem Span.record_injective {p q : Span} (h : p.record = q.record) : p = q := by
  simp only [record, object.injEq, List.cons.injEq, Prod.mk.injEq, true_and, and_true] at h
  have hstart := UInt32.toNat_inj.1 (ofNat_injective h.1)
  have hlength := UInt32.toNat_inj.1 (ofNat_injective h.2)
  cases p
  cases q
  simp_all

theorem Span.ofOption_record_injective {p q : Option Span}
    (h : ofOption record p = ofOption record q) : p = q := by
  cases p with
  | none =>
      cases q with
      | none => rfl
      | some q => exact nomatch (h : Json.null = .object _)
  | some p =>
      cases q with
      | none => exact nomatch (h : Json.object _ = .null)
      | some q => rw [record_injective h]

theorem Diagnostic.record_injective {d e : Diagnostic} (h : d.record = e.record) : d = e := by
  obtain ⟨line, span, message, code, ⟨⟩⟩ := d
  obtain ⟨line', span', message', code', ⟨⟩⟩ := e
  simp only [record, object.injEq, List.cons.injEq, Prod.mk.injEq, true_and, and_true,
    string.injEq] at h
  obtain ⟨hline, hspan, rfl, hcode⟩ := h
  rw [ofNat_injective hline, Span.ofOption_record_injective hspan, ofNat_injective hcode]

theorem Collection.record_injective {c d : Collection} (h : c.record = d.record) : c = d := by
  simp only [record, list.injEq] at h
  have hlists := List.map_injective_iff.2 (fun _ _ => Diagnostic.record_injective) h
  cases c
  cases d
  rw [Collection.mk.injEq]
  exact Array.toList_inj.1 hlists

/-- The literal need not be written: the kind and the lexeme show it. -/
theorem Token.eq_of_recordAt {t u : Token} (ht : t.shown.Scanned) (hu : u.shown.Scanned)
    {column column' : Position} (h : t.recordAt column = u.recordAt column') : t = u := by
  obtain ⟨kind, lexeme, literal, line, span⟩ := t
  obtain ⟨kind', lexeme', literal', line', span'⟩ := u
  simp only [recordAt, members, Kind.record, object.injEq, List.cons_append, List.nil_append,
    List.cons.injEq, Prod.mk.injEq, true_and, and_true, string.injEq] at h
  obtain ⟨hname, rfl, _, hline, hspan, _⟩ := h
  have hshown := ht.ext hu (Kind.name_injective hname) rfl
  simp only [shown, Shown.mk.injEq, true_and] at hshown
  rw [hshown.1, hshown.2, ofNat_injective hline, Span.record_injective hspan]

theorem tokens_eq_of_records {ts us : List Token} {records : List Json}
    (hts : ∀ t ∈ ts, t.shown.Scanned) (hus : ∀ u ∈ us, u.shown.Scanned)
    (h : List.Forall₂ RecordOf ts records) (h' : List.Forall₂ RecordOf us records) : ts = us := by
  induction h generalizing us with
  | nil =>
      cases h'
      rfl
  | cons ht _ ih =>
      cases h' with
      | cons hu hrest =>
          obtain ⟨_, rfl⟩ := ht
          obtain ⟨_, hrecord⟩ := hu
          rw [Token.eq_of_recordAt (hts _ List.mem_cons_self) (hus _ List.mem_cons_self) hrecord,
            ih (fun t ht => hts t (List.mem_cons_of_mem _ ht))
              (fun u hu => hus u (List.mem_cons_of_mem _ hu)) hrest]

/-! ## Documents -/

theorem scanned_of_mem {source : String} {t : Token} (h : t ∈ (scan source).tokens) :
    t.shown.Scanned := scanned_shown (List.mem_map_of_mem h)

theorem proper_records {ts : List Token} {records : List Json}
    (h : List.Forall₂ RecordOf ts records) : ∀ r ∈ records, Proper r := by
  induction h with
  | nil => exact fun r hr => absurd hr List.not_mem_nil
  | cons ht _ ih =>
      obtain ⟨column, rfl⟩ := ht
      exact List.forall_mem_cons.2 ⟨Token.proper_recordAt _ column, ih⟩

theorem proper_documentOf (name : String) {records : List Json} (h : ∀ r ∈ records, Proper r)
    (c : Collection) : Proper (documentOf name records c) :=
  .object (by simp [Proper.string, Proper.list h, Collection.proper_record])

/-- The JSON report of a scan shows the name of the source, and the tokens and the diagnostics with
all that they are made of. -/
theorem jsonReport_injective (name name' source source' : String)
    (h : source.utf8ByteSize < 4294967295) (h' : source'.utf8ByteSize < 4294967295) :
    (∃ text, (scan source).tokenReport .json name source = .ok text) ∧
      (((scan source).tokenReport .json name source).map String.toUTF8 =
          ((scan source').tokenReport .json name' source').map String.toUTF8 →
        name = name' ∧ (scan source).tokens = (scan source').tokens ∧
          (scan source).diagnostics = (scan source').diagnostics) := by
  refine ⟨exists_tokenReport .json name h, fun heq => ?_⟩
  obtain ⟨records, hrecords, hreport⟩ := exists_jsonReport name h
  obtain ⟨records', hrecords', hreport'⟩ := exists_jsonReport name' h'
  simp only [hreport, hreport', Except.map, Except.ok.injEq, String.toUTF8_eq_toByteArray,
    String.toByteArray_inj, String.append_left_inj] at heq
  have hdocuments := pretty_injective (proper_documentOf name (proper_records hrecords) _)
    (proper_documentOf name' (proper_records hrecords') _) heq
  simp only [documentOf, object.injEq, List.cons.injEq, Prod.mk.injEq, true_and, and_true,
    string.injEq, list.injEq] at hdocuments
  obtain ⟨hname, rfl, hdiagnostics⟩ := hdocuments
  exact ⟨hname, tokens_eq_of_records (fun t => scanned_of_mem) (fun u => scanned_of_mem) hrecords
    hrecords', Collection.record_injective hdiagnostics⟩

/-- A quote in the name, a string with a backslash and a line feed in it, and a stray character
behind a blank or behind a tab. -/
theorem jsonReport_injective_blanks :
    "\"\\\n\" @".utf8ByteSize < 4294967295 ∧ "\"\\\n\"\t@".utf8ByteSize < 4294967295 ∧
      ((scan "\"\\\n\" @").tokenReport .json "a\"" "\"\\\n\" @").map String.toUTF8 =
        ((scan "\"\\\n\"\t@").tokenReport .json "a\"" "\"\\\n\"\t@").map String.toUTF8 ∧
      (scan "\"\\\n\" @").tokens = (scan "\"\\\n\"\t@").tokens ∧
      (scan "\"\\\n\" @").diagnostics = (scan "\"\\\n\"\t@").diagnostics := by
  have hscan : scan "\"\\\n\" @" = scan "\"\\\n\"\t@" := by decide +kernel
  have hmap : LineMap.ofText "\"\\\n\" @" = LineMap.ofText "\"\\\n\"\t@" := by decide +kernel
  have hreports : ((scan "\"\\\n\" @").tokenReport .json "a\"" "\"\\\n\" @").map String.toUTF8 =
      ((scan "\"\\\n\"\t@").tokenReport .json "a\"" "\"\\\n\"\t@").map String.toUTF8 := by
    simp only [hscan, hmap, Scan.tokenReport, Scan.document]
  have hall := jsonReport_injective "a\"" "a\"" "\"\\\n\" @" "\"\\\n\"\t@" (by decide) (by decide)
  exact ⟨by decide, by decide, hreports, (hall.2 hreports).2⟩

end LoxLexer
