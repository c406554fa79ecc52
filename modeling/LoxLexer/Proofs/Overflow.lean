import LoxLexer.Number.Nearest

/-!
# Numerals without a finite value

The greatest finite number has 53 bits of significand, all of them ones. A quotient rounds to it
until it comes half a unit above, and from there on to infinity (`isFinite_nearest_iff`).
-/

namespace LoxLexer

/-! ## Rounding to an integer -/

section

variable (num den : Nat)

theorem div_le_divHalfEven : num / den ≤ divHalfEven num den := by
  unfold divHalfEven
  dsimp only
  split <;> omega

theorem divHalfEven_le : divHalfEven num den ≤ num / den + 1 := by
  unfold divHalfEven
  dsimp only
  split <;> omega

end

/-- What is rounded to an even number lies at most a half below it. -/
theorem even_le_divHalfEven_iff {num den k : Nat} (hden : 0 < den) (hk : k % 2 = 0) :
    k ≤ divHalfEven num den ↔ 2 * (k * den) ≤ 2 * num + den := by
  have hlow := div_le_divHalfEven num den
  have hhigh := divHalfEven_le num den
  have hsum := Nat.div_add_mod num den
  have hmod := Nat.mod_lt num hden
  rcases Nat.lt_trichotomy k (num / den + 1) with hlt | heq | hgt
  · have hmul : k * den ≤ den * (num / den) := by
      rw [Nat.mul_comm]
      exact Nat.mul_le_mul_left den (Nat.le_of_lt_succ hlt)
    constructor <;> intro _ <;> omega
  · have hmul : k * den = den * (num / den) + den := by
      rw [heq, Nat.succ_mul, Nat.mul_comm]
    unfold divHalfEven
    dsimp only
    split <;> omega
  · have hmul : den * (num / den) + 2 * den ≤ k * den := by
      rw [Nat.mul_comm den, ← Nat.add_mul]
      exact Nat.mul_le_mul_right den hgt
    constructor <;> intro _ <;> omega

/-! ## Rounding to a number -/

namespace Binary64

/-- How far a quotient is shifted: it then has 53 bits, or fewer if it is not shifted at all. -/
structure Scaled (units den shift : Nat) : Prop where
  lt : units < 0x20000000000000 * (den <<< shift)
  le : 0 < shift → 0x10000000000000 * (den <<< shift) ≤ units

theorem scaled_log2 {units den : Nat} (hden : 0 < den) :
    Scaled units den ((units / den).log2 - 52) where
  lt := by
    rw [Nat.shiftLeft_eq, Nat.mul_comm den, ← Nat.mul_assoc, ← Nat.div_lt_iff_lt_mul hden]
    calc units / den < Nat.pow 2 ((units / den).log2 + 1) := Nat.lt_log2_self
      _ ≤ Nat.pow 2 (53 + ((units / den).log2 - 52)) :=
          Nat.pow_le_pow_right Nat.two_pos (by omega)
      _ = 0x20000000000000 * Nat.pow 2 ((units / den).log2 - 52) := Nat.pow_add ..
  le := by
    intro hpos
    have hne : units / den ≠ 0 := by
      rintro hzero
      simp [hzero] at hpos
    rw [Nat.shiftLeft_eq, Nat.mul_comm den, ← Nat.mul_assoc, ← Nat.le_div_iff_mul_le hden]
    calc 0x10000000000000 * Nat.pow 2 ((units / den).log2 - 52) =
        Nat.pow 2 (52 + ((units / den).log2 - 52)) := (Nat.pow_add 2 52 _).symm
      _ = Nat.pow 2 (units / den).log2 := by rw [Nat.add_sub_cancel' (by omega)]
      _ ≤ units / den := Nat.log2_self_le hne

/-- A greater shift is at least one doubling more. -/
theorem double_shiftLeft_le (n : Nat) {a b : Nat} (h : a < b) : 2 * n <<< a ≤ n <<< b := by
  rw [Nat.shiftLeft_eq, Nat.shiftLeft_eq, Nat.mul_left_comm, ← Nat.pow_succ']
  exact Nat.mul_le_mul_left n (Nat.pow_le_pow_right Nat.two_pos h)

/-- The bits stay below the exponent field `e + 2` just if the quotient is more than half a unit
below the least number with that field, where a unit is `2 ^ e`. -/
theorem shifted_lt_iff {units den shift e : Nat} (hden : 0 < den) (h : Scaled units den shift) :
    shift <<< 52 + divHalfEven units (den <<< shift) < (e + 2) <<< 52 ↔
      2 * units + den <<< e < 0x40000000000000 * (den <<< e) := by
  have hpos : 0 < den <<< shift := Nat.shiftLeft_pos_iff.2 hden
  have hlow := div_le_divHalfEven units (den <<< shift)
  have hhigh := divHalfEven_le units (den <<< shift)
  have hdiv := Nat.div_lt_of_lt_mul (Nat.mul_comm _ _ ▸ h.lt)
  have hle := h.le
  simp only [Nat.shiftLeft_eq _ 52, Nat.reducePow]
  rcases Nat.lt_trichotomy shift e with hlt | rfl | hgt
  · have hdouble : 2 * den <<< shift ≤ den <<< e := double_shiftLeft_le den hlt
    constructor <;> intro _
    · have := h.lt
      omega
    · omega
  · have hiff : 0x20000000000000 ≤ divHalfEven units (den <<< shift) ↔ _ :=
      even_le_divHalfEven_iff hpos rfl
    constructor <;> intro _ <;> omega
  · have hdouble : 2 * den <<< e ≤ den <<< shift := double_shiftLeft_le den hgt
    have hge : 0x10000000000000 ≤ units / den <<< shift :=
      (Nat.le_div_iff_mul_le hpos).2 (h.le (by omega))
    constructor <;> intro _ <;> omega

/-- Half a unit above the greatest finite number. -/
def limit : Nat := 0x3fffffffffffff <<< 970

theorem isFinite_ofNat_iff (n : Nat) :
    (Binary64.mk (UInt64.ofNat (min n infinityBits))).isFinite = true ↔ n < 2047 <<< 52 := by
  have hmin : min n infinityBits ≤ infinityBits := Nat.min_le_right ..
  have hbits : (UInt64.ofNat (min n infinityBits)).toNat = min n infinityBits :=
    UInt64.toNat_ofNat_of_lt' (Nat.lt_of_le_of_lt hmin (by decide))
  rw [isFinite, bne_iff_ne, exponentField, hbits]
  simp only [infinityBits, Nat.shiftRight_eq_div_pow, Nat.shiftLeft_eq, Nat.reducePow]
  omega

theorem lt_limit_iff {num den a b : Nat} :
    2 * num <<< a + den <<< (a + 1 + b) < 0x40000000000000 * (den <<< (a + 1 + b)) ↔
      num < 0x3fffffffffffff <<< b * den := by
  have hnum : 2 * num <<< a = num * Nat.pow 2 (a + 1) := by
    rw [Nat.shiftLeft_eq, Nat.mul_left_comm, ← Nat.pow_succ']
    rfl
  have hden : den <<< (a + 1 + b) = den <<< b * Nat.pow 2 (a + 1) := by
    rw [Nat.add_comm, Nat.shiftLeft_add, Nat.shiftLeft_eq]
    rfl
  have hlimit : 0x3fffffffffffff <<< b * den = 0x3fffffffffffff * den <<< b := by
    rw [Nat.shiftLeft_eq, Nat.shiftLeft_eq, Nat.mul_assoc, Nat.mul_comm den]
  have hpos : 0 < Nat.pow 2 (a + 1) := Nat.two_pow_pos (a + 1)
  rw [hnum, hden, hlimit, ← Nat.add_mul, ← Nat.mul_assoc, Nat.mul_lt_mul_right hpos]
  omega

/-- A quotient has a finite nearest number just if it is less than the limit. -/
theorem isFinite_nearest_iff (num : Nat) {den : Nat} (hden : 0 < den) :
    (nearest num den).isFinite = true ↔ num < limit * den := by
  rw [nearest, isFinite_ofNat_iff]
  exact (shifted_lt_iff (e := 2045) hden (scaled_log2 hden)).trans (lt_limit_iff (b := 970))

end Binary64

/-! ## Numerals -/

namespace Numeral

/-- The numeral stands for a number that is not less than the limit. -/
def Overflows (n : Numeral) : Prop :=
  Binary64.limit * Nat.pow 10 n.fraction.length ≤ natValue (n.whole ++ n.fraction)

instance (n : Numeral) : Decidable n.Overflows := inferInstanceAs (Decidable (_ ≤ _))

theorem isFinite_value_iff (n : Numeral) : n.value.isFinite = true ↔ ¬n.Overflows := by
  have hden : 0 < Nat.pow 10 n.fraction.length := Nat.pow_pos (by decide)
  rw [value, Binary64.isFinite_nearest_iff _ hden, Overflows, Nat.not_le]

/-- The powers of ten are finite up to this one. -/
example : ¬Overflows ⟨'1' :: List.replicate 308 '0', []⟩ := by decide +kernel

end Numeral

end LoxLexer
