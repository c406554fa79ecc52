import LoxLexer.Proofs.Places

/-!
# The last position

Lines and columns are counted from 1, so they can come out greater by one than the last position. In
a source whose offsets are all positions this happens to no token but the one that ends the source,
and only if the source fills all offsets with one line or with line feeds (`EndsBeyond`). Then the
JSON report fails; every other report is completed (`placed_unless_endsBeyond`).
-/

namespace LoxLexer

open LineMap

/-! ## Sources that fill all offsets -/

/-- The source fills all offsets, and it is one line or nothing but line feeds. -/
def EndsBeyond (source : String) : Prop :=
  source.utf8ByteSize = 4294967295 ∧ ('\n' ∉ source.toList ∨ ∀ c ∈ source.toList, c = '\n')

theorem count_eq_byteSize_iff {text : List Char} :
    text.count '\n' = byteSize text ↔ ∀ c ∈ text, c = '\n' := by
  induction text with
  | nil => simp
  | cons c cs ih =>
      have hpos := c.utf8Size_pos
      have hle := count_le_byteSize cs
      rw [List.count_cons, byteSize_cons, List.forall_mem_cons, ← ih]
      by_cases hc : c = '\n'
      · subst hc
        have hone : '\n'.utf8Size = 1 := rfl
        simp only [beq_self_eq_true, if_true, true_and, hone]
        omega
      · simp only [beq_iff_eq, hc, if_false, false_and, iff_false]
        omega

/-- At the end of a source the line or the column is too great only if the source fills all
offsets. -/
theorem tooFar_size_iff {source : String} (h : source.utf8ByteSize ≤ 4294967295) :
    TooFar source source.utf8ByteSize ↔ EndsBeyond source := by
  have hle := count_le_byteSize source.toList
  have hall := @count_eq_byteSize_iff source.toList
  have hnone : source.toList.count '\n' = 0 ↔ '\n' ∉ source.toList := List.count_eq_zero
  rw [byteSize_toList] at hle hall
  rw [TooFar, EndsBeyond, lineFeeds_of_le (Nat.le_refl _), ← hall, ← hnone]
  omega

/-! ## Tokens and their places -/

/-- The start of the token has a place, and to find it no index and no subtraction goes wrong. -/
structure Placed (source : String) (t : Token) : Prop where
  start : ∃ s, (ofText source).starts[(ofText source).lineOf t.span.start - 1]? = some s ∧
    s ≤ t.span.start
  place : ∃ p, (ofText source).place t.span.start = .ok p ∧ IsPlace source t.span.first p

/-- The offsets of the source are all positions, but a token has no place, and so there is no
report. -/
structure Unplaced (source : String) : Prop where
  size : source.utf8ByteSize ≤ 4294967295
  token : ∃ t ∈ (scan source).tokens, (ofText source).place t.span.start = .error .overflow
  report : ∀ name, (scan source).tokenReport .json name source = .error .overflow

section

variable {source : String} (h : source.utf8ByteSize ≤ 4294967295) {t : Token}

include h

theorem Placed.of_not_tooFar (hfits : ¬TooFar source t.span.first) : Placed source t where
  start := by
    obtain ⟨start, hstart⟩ := exists_lineBegins source t.span.first
    refine ⟨_, getElem?_starts h t.span.start hstart, ?_⟩
    have hle := hstart.le
    rw [UInt32.le_iff_toNat_le, Position.toNat_ofOffset]
    exact Nat.le_trans (Nat.min_le_left _ _) hle
  place := place_isPlace h t.span.start hfits

/-- A token with a lexeme begins before the end of the source. -/
theorem Placed.of_mem_tokensOf (ht : t ∈ tokensOf (events source)) : Placed source t := by
  have htiling := tiling_events h
  have hlt := htiling.first_lt_last (mem_tokensOf ht)
  have hle := htiling.last_le_offset_after (mem_tokensOf ht)
  rw [offset_after_toList] at hle
  have hcount := lineFeeds_le source 0 t.span.first
  refine .of_not_tooFar h ?_
  simp only [Event.span, TooFar] at hlt hle ⊢
  omega

theorem first_of_eof (ht : t ∈ (scan source).tokens) (hkind : t.kind = .eof) :
    t.span.first = source.utf8ByteSize := by
  rw [tokens_scan] at ht
  rcases List.mem_append.1 ht with ht | ht
  · exact absurd hkind (lexeme_of_mem ht).kind_ne_eof
  · cases List.mem_singleton.1 ht
    rw [offset_after_toList, Token.first_eof h]

theorem Placed.of_mem (ht : t ∈ (scan source).tokens) (hor : t.kind ≠ .eof ∨ ¬EndsBeyond source) :
    Placed source t := by
  by_cases hkind : t.kind = .eof
  · have hends := hor.resolve_left fun hne => hne hkind
    rw [← tooFar_size_iff h, ← first_of_eof h ht hkind] at hends
    exact .of_not_tooFar h hends
  · rw [tokens_scan] at ht
    rcases List.mem_append.1 ht with ht | ht
    · exact .of_mem_tokensOf h ht
    · cases List.mem_singleton.1 ht
      exact absurd rfl hkind

/-! ## Reports -/

theorem exists_jsonReport_of_not_endsBeyond (name : String) (hends : ¬EndsBeyond source) :
    ∃ text, (scan source).tokenReport .json name source = .ok text := by
  have hplaces : ∀ t ∈ (scan source).tokens,
      ∃ p, (ofText source).place t.span.start = .ok p := by
    intro t ht
    obtain ⟨p, hp, _⟩ := (Placed.of_mem h ht (.inr hends)).place
    exact ⟨p, hp⟩
  obtain ⟨records, _, hdocument⟩ := exists_document_of_places name hplaces
  exact ⟨_, jsonReport_eq hdocument⟩

theorem Unplaced.of_endsBeyond (hends : EndsBeyond source) : Unplaced source := by
  have hplace : (ofText source).place (Token.eof (Location.start.after source.toList).line
      (Location.start.after source.toList).offset).span.start = .error .overflow := by
    have hfirst : (Token.eof (Location.start.after source.toList).line
        (Location.start.after source.toList).offset).span.first = source.utf8ByteSize := by
      rw [offset_after_toList, Token.first_eof h]
    refine place_eq_overflow h _ ?_
    rw [← tooFar_size_iff h, ← hfirst] at hends
    exact hends
  refine ⟨h, ⟨_, ?_, hplace⟩, fun name => ?_⟩
  · rw [tokens_scan]
    exact List.mem_append_right _ List.mem_cons_self
  · -- All tokens before the last one have their places.
    simp only [Scan.tokenReport, Scan.document, tokens_scan]
    rw [mapM_concat_error]
    · rfl
    · intro t ht
      obtain ⟨p, hp, _⟩ := (Placed.of_mem_tokensOf h ht).place
      exact ⟨t.recordAt p.column, by rw [hp]; rfl⟩
    · rw [hplace]
      rfl

end

/-- In a source whose offsets are all positions, every token with a lexeme has a place, and so has
the token that ends the source, unless the source fills all offsets with one line or with line
feeds. Exactly then the JSON report is not completed. -/
theorem placed_unless_endsBeyond (name source : String) (h : source.utf8ByteSize ≤ 4294967295) :
    (∀ t ∈ (scan source).tokens, t.kind ≠ .eof ∨ ¬EndsBeyond source → Placed source t) ∧
      ((∃ text, (scan source).tokenReport .json name source = .ok text) ↔ ¬EndsBeyond source) := by
  refine ⟨fun t ht hor => .of_mem h ht hor, ?_, exists_jsonReport_of_not_endsBeyond h name⟩
  rintro ⟨text, hreport⟩ hends
  cases hreport.symm.trans ((Unplaced.of_endsBeyond h hends).report name)

/-- An empty line, and a token behind a blank. -/
theorem placed_unless_endsBeyond_blank :
    "\n\n a".utf8ByteSize ≤ 4294967295 ∧
      (∀ t ∈ (scan "\n\n a").tokens, Placed "\n\n a" t) ∧
      ∃ text, (scan "\n\n a").tokenReport .json "a.lox" "\n\n a" = .ok text := by
  have hends : ¬EndsBeyond "\n\n a" := fun hends => absurd hends.1 (by decide)
  obtain ⟨hplaced, hreport⟩ := placed_unless_endsBeyond "a.lox" "\n\n a" (by decide)
  exact ⟨by decide, fun t ht => hplaced t ht (.inr hends), hreport.2 hends⟩

/-! ## One character over and over -/

theorem byteSize_replicate (n : Nat) (c : Char) :
    byteSize (List.replicate n c) = n * c.utf8Size := by
  induction n with
  | zero => simp
  | succ n ih =>
      rw [List.replicate_succ, byteSize_cons, ih, Nat.succ_mul, Nat.add_comm]

theorem utf8ByteSize_replicate {c : Char} (hc : c.utf8Size = 1) (n : Nat) :
    (String.ofList (List.replicate n c)).utf8ByteSize = n := by
  rw [utf8ByteSize_ofList, byteSize_replicate, hc, Nat.mul_one]

theorem Unplaced.replicate {c : Char} (hc : c.utf8Size = 1) :
    Unplaced (.ofList (List.replicate 4294967295 c)) := by
  have hsize := utf8ByteSize_replicate hc 4294967295
  refine .of_endsBeyond (Nat.le_of_eq hsize) ⟨hsize, ?_⟩
  rw [String.toList_ofList]
  by_cases hnewline : c = '\n'
  · exact .inr fun d hd => (List.eq_of_mem_replicate hd).trans hnewline
  · exact .inl fun hmem => hnewline (List.eq_of_mem_replicate hmem).symm

/-- The column at the end of the longest line, and the line behind so many line feeds, are no 32-bit
numbers. -/
theorem unplaced_longest :
    Unplaced (.ofList (List.replicate 4294967295 'a')) ∧
      Unplaced (.ofList (List.replicate 4294967295 '\n')) :=
  ⟨.replicate rfl, .replicate rfl⟩

end LoxLexer
