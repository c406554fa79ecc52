import LoxLexer.Json.Value
import LoxLexer.Proofs.Grammar

/-!
# Numbers are written in the grammar of JSON

A JSON number has an integer without superfluous zeros in front, and after it a fraction and an
exponent that each may be missing. The shortest decimal of a number other than zero is not zero, so
its first digit may stand in front (`isNumber_write`).
-/

namespace LoxLexer

/-! ## The shortest decimal -/

namespace Decimal

theorem digits_normalize_ne_zero (d : Decimal) (h : d.digits ≠ 0) : d.normalize.digits ≠ 0 := by
  induction d using normalize.induct with
  | case1 d hd ih =>
      rw [normalize, if_pos hd]
      apply ih
      show d.digits / 10 ≠ 0
      omega
  | case2 d hd => rwa [normalize, if_neg hd]

end Decimal

namespace Binary64

theorem significand_pos {x : Binary64} (h : x.isZero = false) : 0 < x.significand := by
  simp only [isZero, Bool.and_eq_false_iff, beq_eq_false_iff_ne] at h
  unfold significand
  split <;> omega

theorem Reach.low_pos {x : Binary64} (h : x.isZero = false) : 0 < (Reach.of x).low := by
  have hpos := significand_pos h
  apply Nat.shiftLeft_pos_iff.2
  split <;> omega

/-- Of the two neighbours on the grid only the lower one may be zero. -/
theorem Reach.digits_of_neighbours {hasBelow hasAbove preferAbove : Prop} [Decidable hasBelow]
    [Decidable hasAbove] [Decidable preferAbove] {below : Nat} {exponent : Int} {d : Decimal}
    (hne : hasBelow → below ≠ 0)
    (h : (if hasBelow ∧ hasAbove then
        some (Decimal.mk (if preferAbove then below + 1 else below) exponent)
      else if hasBelow then some ⟨below, exponent⟩
      else if hasAbove then some ⟨below + 1, exponent⟩
      else none) = some d) : d.digits ≠ 0 := by
  split at h
  · rename_i hboth
    cases h
    have hbelow := hne hboth.1
    dsimp only
    split <;> omega
  · split at h
    · rename_i hbelow
      cases h
      exact hne hbelow
    · split at h
      · cases h
        exact Nat.succ_ne_zero _
      · cases h

/-- If zero is not in the reach, it is not found on a grid. -/
theorem Reach.digits_onGrid_ne_zero {r : Reach} (hlow : 0 < r.low) {tie : Tie} {exponent : Int}
    {d : Decimal} (h : r.onGrid? tie exponent = some d) : d.digits ≠ 0 := by
  have hscale : 0 < Nat.pow 10 (-exponent).toNat := Nat.pow_pos (by decide)
  have hpos := Nat.mul_pos hlow hscale
  refine digits_of_neighbours (fun hbelow hzero => ?_) h
  rw [hzero, Nat.zero_mul] at hbelow
  split at hbelow <;> omega

theorem shortest_eq_or_digits_ne_zero {x : Binary64} (h : x.isZero = false) (tie : Tie) :
    x.shortest tie = ⟨0, 0⟩ ∨ (x.shortest tie).digits ≠ 0 := by
  unfold shortest
  dsimp only
  cases hfound : (List.range 17).findSome? fun (more : Nat) =>
      (Reach.of x).onGrid? tie ((Reach.of x).decimalExponent - more) with
  | none =>
      left
      simp [Decimal.normalize]
  | some d =>
      right
      obtain ⟨more, _, hmore⟩ := List.exists_of_findSome?_eq_some hfound
      exact Decimal.digits_normalize_ne_zero d (Reach.digits_onGrid_ne_zero (Reach.low_pos h) hmore)

end Binary64

/-! ## The grammar -/

namespace Json

def IsDigits (cs : List Char) : Prop := cs ≠ [] ∧ ∀ c ∈ cs, IsDigit c

/-- Digits, the first of which is not zero. -/
inductive IsPositive : List Char → Prop
  | intro {c : Char} {cs : List Char} (hc : IsDigit c) (hne : c ≠ '0') (h : ∀ d ∈ cs, IsDigit d) :
      IsPositive (c :: cs)

inductive IsInteger : List Char → Prop
  | zero : IsInteger ['0']
  | positive {cs : List Char} (h : IsPositive cs) : IsInteger cs

inductive IsFraction : List Char → Prop
  | none : IsFraction []
  | some {cs : List Char} (h : IsDigits cs) : IsFraction ('.' :: cs)

inductive IsExponent : List Char → Prop
  | none : IsExponent []
  | some {e : Char} {sign cs : List Char} (he : e ∈ ['e', 'E']) (hsign : sign ∈ [[], ['-'], ['+']])
      (h : IsDigits cs) : IsExponent (e :: sign ++ cs)

/-- The numbers of JSON. -/
inductive IsNumber : List Char → Prop
  | intro {sign whole fraction exponent : List Char} (hsign : sign ∈ [[], ['-']])
      (hwhole : IsInteger whole) (hfraction : IsFraction fraction)
      (hexponent : IsExponent exponent) : IsNumber (sign ++ whole ++ fraction ++ exponent)

/-! ## Digits -/

theorem isDigit_zero : IsDigit '0' := by decide

theorem isDigit_zeros {n : Int} {c : Char} (h : c ∈ Layout.zeros n) : IsDigit c := by
  rw [List.eq_of_mem_replicate h]
  exact isDigit_zero

theorem isDigit_toDigits {n : Nat} {c : Char} (h : c ∈ Nat.toDigits 10 n) : IsDigit c :=
  isDigit_iff.1 (Nat.isDigit_of_mem_toDigits (by decide) (by decide) h)

theorem IsPositive.digits {cs : List Char} (h : IsPositive cs) : IsDigits cs := by
  cases h with
  | intro hc _ h => exact ⟨List.cons_ne_nil _ _, List.forall_mem_cons.2 ⟨hc, h⟩⟩

theorem IsPositive.append {cs ds : List Char} (h : IsPositive cs) (hds : ∀ d ∈ ds, IsDigit d) :
    IsPositive (cs ++ ds) := by
  cases h with
  | intro hc hne h => exact .intro hc hne (List.forall_mem_append.2 ⟨h, hds⟩)

theorem IsPositive.take {cs : List Char} (h : IsPositive cs) {n : Nat} (hn : 0 < n) :
    IsPositive (cs.take n) := by
  cases h with
  | intro hc hne h =>
      obtain ⟨n, rfl⟩ := Nat.exists_eq_succ_of_ne_zero (Nat.ne_of_gt hn)
      exact .intro hc hne fun d hd => h d (List.mem_of_mem_take hd)

theorem isDigit_digitChar {n : Nat} (h : n < 10) : IsDigit (Nat.digitChar n) :=
  isDigit_iff.1 (by simpa [Nat.isDigit_digitChar] using h)

theorem isPositive_toDigits {n : Nat} (h : n ≠ 0) : IsPositive (Nat.toDigits 10 n) := by
  induction n using Nat.strongRecOn with
  | ind n ih =>
      by_cases hlt : n < 10
      · rw [Nat.toDigits_of_lt_base hlt]
        exact .intro (isDigit_digitChar hlt) (by simpa using h) (by simp)
      · rw [Nat.toDigits_of_base_le (by decide) (by omega)]
        refine (ih (n / 10) (by omega) (by omega)).append fun d hd => ?_
        rw [List.mem_singleton.1 hd]
        exact isDigit_digitChar (Nat.mod_lt n (by decide))

/-! ## Layouts -/

variable (l : Layout)

/-- A fraction of zero, or none. -/
theorem isFraction_kept (keeps : Bool) : IsFraction (if keeps then ['.', '0'] else []) := by
  cases keeps with
  | true => exact .some ⟨List.cons_ne_nil _ _, List.forall_mem_singleton.2 isDigit_zero⟩
  | false => exact .none

/-- An integer with a fraction, as the layouts write them. -/
def IsMagnitude (cs : List Char) : Prop :=
  ∃ whole fraction exponent, cs = whole ++ fraction ++ exponent ∧ IsInteger whole ∧
    IsFraction fraction ∧ IsExponent exponent

theorem isMagnitude_positional {digits : List Char} (h : IsPositive digits) (point : Int) :
    IsMagnitude (l.positional digits point) := by
  unfold Layout.positional
  split
  · refine ⟨['0'], '.' :: (Layout.zeros (-point) ++ digits), [], by simp, .zero, .some ?_, .none⟩
    have hzeros : ∀ c ∈ Layout.zeros (-point), IsDigit c := fun c => isDigit_zeros
    exact ⟨by simp [h.digits.1], List.forall_mem_append.2 ⟨hzeros, h.digits.2⟩⟩
  · split
    · exact ⟨_, _, [], (List.append_nil _).symm, .positive (h.append fun c => isDigit_zeros),
        isFraction_kept l.keepsFraction, .none⟩
    · rename_i hpoint hlength
      refine ⟨digits.take point.toNat, '.' :: digits.drop point.toNat, [], by simp,
        .positive (h.take (by omega)), .some ⟨?_, fun c hc => ?_⟩, .none⟩
      · rw [Ne, List.drop_eq_nil_iff]
        omega
      · exact h.digits.2 c (List.mem_of_mem_drop hc)

theorem isMagnitude_positional_zero : IsMagnitude (l.positional ['0'] 1) :=
  ⟨['0'], if l.keepsFraction then ['.', '0'] else [], [], by simp [Layout.positional, Layout.zeros],
    .zero, isFraction_kept _, .none⟩

theorem isExponent_scientific (exponent : Int) :
    IsExponent ('e' :: (if exponent < 0 then '-' else '+') :: Nat.toDigits 10 exponent.natAbs) := by
  have hdigits : IsDigits (Nat.toDigits 10 exponent.natAbs) :=
    ⟨Nat.toDigits_ne_nil, fun c => isDigit_toDigits⟩
  have hsign : [if exponent < 0 then '-' else '+'] ∈ [[], ['-'], ['+']] := by split <;> simp
  have hsome := IsExponent.some (e := 'e') (by simp) hsign hdigits
  exact hsome

theorem isMagnitude_scientific {digits : List Char} (h : IsPositive digits) (exponent : Int) :
    IsMagnitude (Layout.scientific digits exponent) := by
  unfold Layout.scientific
  dsimp only
  split
  · exact ⟨digits, [], _, by simp, .positive h, .none, isExponent_scientific exponent⟩
  · rename_i hlength
    refine ⟨digits.take 1, '.' :: digits.drop 1, _, rfl, .positive (h.take Nat.one_pos),
      .some ⟨?_, fun c hc => h.digits.2 c (List.mem_of_mem_drop hc)⟩,
      isExponent_scientific exponent⟩
    rw [Ne, List.drop_eq_nil_iff]
    omega

theorem isMagnitude_magnitude (x : Binary64) : IsMagnitude (l.magnitude x) := by
  unfold Layout.magnitude
  cases hzero : x.isZero with
  | true => exact isMagnitude_positional_zero l
  | false =>
      simp only [Bool.false_eq_true, if_false]
      rcases Binary64.shortest_eq_or_digits_ne_zero hzero l.tie with hnone | hne
      · rw [hnone]
        split
        · exact isMagnitude_positional_zero l
        · exact ⟨['0'], [], _, rfl, .zero, .none, isExponent_scientific 0⟩
      · split
        · exact isMagnitude_positional l (isPositive_toDigits hne) _
        · exact isMagnitude_scientific (isPositive_toDigits hne) _

/-- Finite numbers are written as JSON numbers. -/
theorem isNumber_write {x : Binary64} (h : x.isFinite = true) : IsNumber (l.write x).toList := by
  obtain ⟨whole, fraction, exponent, heq, hwhole, hfraction, hexponent⟩ :=
    isMagnitude_magnitude l x
  have hnan : x.isNaN = false := by simp [Binary64.isNaN, h]
  have hwrite : (l.write x).toList =
      (if x.isNegative then ['-'] else []) ++ whole ++ fraction ++ exponent := by
    simp [Layout.write, hnan, h, heq]
  rw [hwrite]
  refine .intro ?_ hwhole hfraction hexponent
  split <;> simp

end Json

end LoxLexer
