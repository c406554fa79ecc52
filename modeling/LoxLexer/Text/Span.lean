/-!
# Positions and spans

A position is a byte offset of 32 bits, and offsets beyond the last position stand at the last
position. A span is a start and a length; its end need not be a position, so asking for it can
fail.
-/

namespace LoxLexer

/-! ## Faults -/

/-- What can go wrong with the arithmetic of positions. It is checked: a result that cannot be
represented is a fault and never a wrapped number. -/
inductive Fault
  | reversedBounds
  | overflow
deriving DecidableEq

def Fault.message : Fault → String
  | .reversedBounds => "assertion failed: end >= start"
  | .overflow => "attempt to add with overflow"

/-! ## Positions -/

abbrev Position := UInt32

namespace Position

/-- Offsets that do not fit are cut off at the last position. -/
def ofOffset (offset : Nat) : Position := UInt32.ofNat (min offset 4294967295)

theorem toNat_ofOffset (offset : Nat) : (ofOffset offset).toNat = min offset 4294967295 := by
  have h : min offset 4294967295 < 4294967296 := by omega
  rw [ofOffset, UInt32.toNat_ofNat', Nat.mod_eq_of_lt h]

theorem ofOffset_le_ofOffset {a b : Nat} (h : a ≤ b) : ofOffset a ≤ ofOffset b := by
  rw [UInt32.le_iff_toNat_le, toNat_ofOffset, toNat_ofOffset]
  omega

def add (a b : Position) : Except Fault Position :=
  if a.toNat + b.toNat < 4294967296 then .ok (a + b) else .error .overflow

theorem add_eq_ok {a b : Position} (h : a.toNat + b.toNat < 4294967296) : add a b = .ok (a + b) :=
  if_pos h

end Position

/-! ## Spans -/

/-- The bytes from `start`, `length` many. -/
structure Span where
  start : Position
  length : Position
deriving DecidableEq, Inhabited

namespace Span

def empty (start : Position) : Span := ⟨start, 0⟩

def between (start stop : Position) (_ : start ≤ stop) : Span := ⟨start, stop - start⟩

def ofBounds (start stop : Position) : Except Fault Span :=
  if h : start ≤ stop then .ok (between start stop h) else .error .reversedBounds

def ofOffsets (start stop : Nat) : Except Fault Span :=
  ofBounds (.ofOffset start) (.ofOffset stop)

/-- The span of two offsets that stand in order; cutting off keeps the order. -/
def covering (start stop : Nat) (h : start ≤ stop) : Span :=
  between (.ofOffset start) (.ofOffset stop) (Position.ofOffset_le_ofOffset h)

theorem ofOffsets_eq_ok {start stop : Nat} (h : start ≤ stop) :
    ofOffsets start stop = .ok (covering start stop h) :=
  dif_pos (Position.ofOffset_le_ofOffset h)

@[simp] theorem start_covering {start stop : Nat} (h : start ≤ stop) :
    (covering start stop h).start = .ofOffset start := rfl

/-- No end that comes from an offset overflows. -/
theorem toNat_start_add_length_covering {start stop : Nat} (h : start ≤ stop) :
    (covering start stop h).start.toNat + (covering start stop h).length.toNat =
      min stop 4294967295 := by
  have hle := Position.ofOffset_le_ofOffset h
  have h₁ := UInt32.le_iff_toNat_le.1 hle
  simp only [covering, between, UInt32.toNat_sub_of_le _ _ hle, Position.toNat_ofOffset] at h₁ ⊢
  omega

def isEmpty (s : Span) : Bool := s.length == 0

def stop (s : Span) : Except Fault Position := Position.add s.start s.length

theorem stop_covering {start stop : Nat} (h : start ≤ stop) :
    (covering start stop h).stop = .ok (.ofOffset stop) := by
  have hsum := toNat_start_add_length_covering h
  rw [Span.stop, Position.add_eq_ok (by omega)]
  congr 1
  apply UInt32.toNat_inj.1
  rw [UInt32.toNat_add, hsum, Position.toNat_ofOffset]
  omega

/-- Written as a half-open interval, `[start, end)`. -/
def interval (s : Span) : Except Fault String := do
  let last ← s.stop
  return s!"[{s.start}, {last})"

/-- Written as a range, `start..end`. -/
def range (s : Span) : Except Fault String := do
  let last ← s.stop
  return s!"{s.start}..{last}"

end Span

end LoxLexer
