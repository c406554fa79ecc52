import LoxLexer.Proofs.CursorRun

/-!
# Literals follow lexemes

A string has the text between its quotes as its literal, a number has the value of its digits, and
no other token has a literal. The digits of a number can always be read, and what is read is neither
a NaN nor negative. So the value for what is no numeral occurs in no scan, and a scan is equal to
itself (`literals_follow_lexemes`).
-/

namespace LoxLexer

/-! ## Numbers from digits -/

namespace Binary64

theorem toNat_bits_nearest_le (num den : Nat) : (nearest num den).bits.toNat ≤ infinityBits := by
  rw [nearest, UInt64.toNat_ofNat']
  exact Nat.le_trans (Nat.mod_le _ _) (Nat.min_le_right _ _)

/-- No pattern up to that of infinity has the sign bit. -/
theorem isNegative_eq_false {x : Binary64} (h : x.bits.toNat ≤ infinityBits) :
    x.isNegative = false := by
  simp only [isNegative, infinityBits, decide_eq_false_iff_not] at h ⊢
  omega

/-- The NaNs without a sign bit are the patterns above that of infinity. -/
theorem isNaN_eq_false {x : Binary64} (h : x.bits.toNat ≤ infinityBits) : x.isNaN = false := by
  simp only [isNaN, isFinite, exponentField, fractionField, infinityBits,
    Nat.shiftRight_eq_div_pow, Nat.reducePow] at h ⊢
  by_cases hexponent : x.bits.toNat / 0x10000000000000 % 0x800 = 0x7ff
  · have hfraction : x.bits.toNat % 0x10000000000000 = 0 := by omega
    simp [hfraction]
  · simp [hexponent]

end Binary64

/-! ## Tokens -/

/-- The lexeme is a numeral, and it is read as the number. -/
structure ReadAs (lexeme : String) (x : Binary64) : Prop where
  numeral : ∃ n : Numeral, n.whole ≠ [] ∧ (∀ c ∈ n.whole ++ n.fraction, IsDigit c) ∧
    lexeme.toList = n.text ∧ Numeral.ofText? lexeme.toList = some n ∧ x = n.value
  value : x = .ofText lexeme
  not_nan : x.isNaN = false
  not_negative : x.isNegative = false

theorem ReadAs.of_numeral {lexeme : String} {n : Numeral} (hwhole : n.whole ≠ [])
    (hdigits : ∀ c ∈ n.whole ++ n.fraction, IsDigit c) (hlexeme : lexeme.toList = n.text) :
    ReadAs lexeme n.value := by
  have hread : Numeral.ofText? lexeme.toList = some n := by
    rw [hlexeme]
    exact Cursor.ofText?_text hwhole hdigits
  have hbits : n.value.bits.toNat ≤ Binary64.infinityBits := Binary64.toNat_bits_nearest_le _ _
  refine ⟨⟨n, hwhole, hdigits, hlexeme, hread, rfl⟩, ?_, Binary64.isNaN_eq_false hbits,
    Binary64.isNegative_eq_false hbits⟩
  rw [Binary64.ofText, hread]
  rfl

/-- The token has a literal just if it is a string or a number, and then the literal is what the
lexeme stands for. -/
structure Token.Follows (t : Token) : Prop where
  string : (∃ text, t.literal = .text text) ↔ t.kind = .string
  text : ∀ text, t.literal = .text text →
    t.lexeme.toList = '"' :: text.toList ++ ['"'] ∧ '"' ∉ text.toList
  number : (∃ x, t.literal = .number x) ↔ t.kind = .number
  value : ∀ x, t.literal = .number x → ReadAs t.lexeme x
  absent : t.kind ≠ .string → t.kind ≠ .number → t.literal = .absent

namespace Token.Follows

variable {t : Token}

theorem of_absent (hstring : t.kind ≠ .string) (hnumber : t.kind ≠ .number)
    (habsent : t.literal = .absent) : t.Follows := by
  refine ⟨?_, ?_, ?_, ?_, fun _ _ => habsent⟩ <;> rw [habsent]
  · exact iff_of_false nofun hstring
  · exact nofun
  · exact iff_of_false nofun hnumber
  · exact nofun

theorem of_string (hkind : t.kind = .string) {body : List Char} (hbody : '"' ∉ body)
    (hlexeme : t.lexeme.toList = '"' :: body ++ ['"']) (htext : t.literal = .text (.ofList body)) :
    t.Follows := by
  refine ⟨iff_of_true ⟨_, htext⟩ hkind, fun text h => ?_, ?_, ?_, fun hne => absurd hkind hne⟩
  · cases htext.symm.trans h
    rw [String.toList_ofList]
    exact ⟨hlexeme, hbody⟩
  · rw [htext, hkind]
    exact iff_of_false nofun nofun
  · rw [htext]
    exact nofun

theorem of_number (hkind : t.kind = .number) {n : Numeral} (hwhole : n.whole ≠ [])
    (hdigits : ∀ c ∈ n.whole ++ n.fraction, IsDigit c) (hlexeme : t.lexeme.toList = n.text)
    (hvalue : t.literal = .number n.value) : t.Follows := by
  have hread := ReadAs.of_numeral hwhole hdigits hlexeme
  generalize n.value = value at hvalue hread
  refine ⟨?_, ?_, iff_of_true ⟨_, hvalue⟩ hkind, fun x h => ?_, fun _ hne => absurd hkind hne⟩
  · rw [hvalue, hkind]
    exact iff_of_false nofun nofun
  · rw [hvalue]
    exact nofun
  · cases hvalue.symm.trans h
    exact hread

theorem of_lexeme (h : Lexeme (.token t.kind t.lexeme.toList t.literal)) : t.Follows := by
  rcases h.literal_cases with ⟨hkind, body, hbody, hlexeme, htext⟩ |
    ⟨hkind, n, hwhole, hdigits, hlexeme, hvalue⟩ | ⟨hstring, hnumber, habsent⟩
  · exact of_string hkind hbody hlexeme htext
  · exact of_number hkind hwhole hdigits hlexeme hvalue
  · exact of_absent hstring hnumber habsent

theorem of_mem_events {source : String} (h : .token t ∈ events source) : t.Follows := by
  have hmem : t ∈ tokensOf (events source) := List.mem_filterMap.2 ⟨.token t, h, rfl⟩
  exact of_lexeme (lexeme_of_mem hmem)

theorem of_mem {source : String} (h : t ∈ (scan source).tokens) : t.Follows := by
  rw [tokens_scan] at h
  rcases List.mem_append.1 h with h | h
  · exact of_lexeme (lexeme_of_mem h)
  · cases List.mem_singleton.1 h
    exact of_absent nofun nofun rfl

/-- What passes find is read from bytes, and it is read right as well. -/
theorem of_run {source : String} {n : Nat} {c : Cursor} {found : List Event}
    (hrun : Cursor.Run source n c found) (h : .token t ∈ found) : t.Follows := by
  obtain ⟨before, rest, hstands⟩ := hrun.stands
  have hmem : Event.token t ∈ events source := by
    rw [hstands.events_eq]
    exact List.mem_append_left _ h
  exact of_mem_events hmem

end Token.Follows

/-! ## Equality -/

theorem Literal.beq_self_iff (l : Literal) :
    (l == l) = true ↔ ∀ x, l = .number x → x.isNaN = false := by
  cases l with
  | absent => exact iff_of_true rfl nofun
  | text value =>
      have hsame : (value == value) = true := beq_self_eq_true value
      exact iff_of_true hsame nofun
  | number value =>
      have hvalue : (Literal.number value == .number value) = !value.isNaN := value.beq_self
      rw [hvalue, Bool.not_eq_true']
      constructor
      · rintro h x ⟨⟩
        exact h
      · exact fun h => h value rfl

example : (Literal.number ⟨0x7ff8000000000000⟩ == .number ⟨0x7ff8000000000000⟩) = false := by decide

theorem Token.beq_self (t : Token) : (t == t) = (t.literal == t.literal) := by
  have hequal : (t == t) = (t.kind == t.kind && t.lexeme == t.lexeme && t.literal == t.literal &&
    t.line == t.line && t.span == t.span) := rfl
  rw [hequal]
  simp

/-- A result of a scan is equal to itself just if it has no NaN. -/
theorem Scan.beq_self_iff (s : Scan) :
    (s == s) = true ↔ ∀ t ∈ s.tokens, ∀ x, t.literal = .number x → x.isNaN = false := by
  have hequal : (s == s) = (s.tokens == s.tokens && s.diagnostics == s.diagnostics) := rfl
  have htokens (ts : List Token) : (ts == ts) = ts.all fun t => t == t := by
    induction ts with
    | nil => rfl
    | cons t ts ih => rw [List.cons_beq_cons, ih, List.all_cons]
  rw [hequal, htokens, beq_self_eq_true, Bool.and_true, List.all_eq_true]
  simp only [Token.beq_self, Literal.beq_self_iff]

/-- The literals of a source's tokens are told by the lexemes, also as passes over the source find
them. -/
structure LiteralsFollow (source : String) : Prop where
  tokens : ∀ t ∈ (scan source).tokens, t.Follows
  found : ∀ {n c found}, Cursor.Run source n c found → ∀ t, .token t ∈ found → t.Follows
  equal : (scan source == scan source) = true

/-- Every literal is told by its lexeme, and so scans of the same source are equal, although not
everything that has the form of a scan is equal to itself. -/
theorem literals_follow_lexemes (source : String) :
    LiteralsFollow source ∧ ∃ s : Scan, (s == s) = false := by
  refine ⟨⟨fun t ht => .of_mem ht, fun hrun t ht => .of_run hrun ht, ?_⟩, ?_⟩
  · rw [Scan.beq_self_iff]
    intro t ht x hx
    exact ((Token.Follows.of_mem ht).value x hx).not_nan
  · have hnan : Binary64.isNaN ⟨0x7ff8000000000000⟩ = true := by decide
    refine ⟨⟨[⟨.number, "", .number ⟨0x7ff8000000000000⟩, 1, .empty 0⟩], .empty⟩, ?_⟩
    rw [← Bool.not_eq_true, Scan.beq_self_iff]
    intro h
    cases hnan.symm.trans (h _ List.mem_cons_self _ rfl)

end LoxLexer
