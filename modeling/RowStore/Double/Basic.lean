/-!
  Doubles — 64-bit floating point values as bit patterns.

  A double is kept as its bits, so a NaN keeps its payload and two zeros stay
  apart; `ieeeEq` is the comparison of the floating point standard, under which
  a NaN differs from itself (`ieeeEq_nan`) and the two zeros are equal.
-/

namespace RowStore

/-- A double, as its sign, exponent and fraction bits. -/
structure Double where
  bits : UInt64
  deriving DecidableEq, Repr, Inhabited

namespace Double

/-- Where the exponent begins: two to the fifty-second. -/
def exponentUnit : Nat := 4503599627370496

/-- The sign bit. -/
def negative (x : Double) : Bool := x.bits.toNat / exponentUnit / 2048 == 1

/-- The eleven exponent bits. -/
def exponent (x : Double) : Nat := x.bits.toNat / exponentUnit % 2048

/-- The fifty-two fraction bits. -/
def fraction (x : Double) : Nat := x.bits.toNat % exponentUnit

def isNaN (x : Double) : Bool := x.exponent == 2047 && x.fraction != 0

def isInfinite (x : Double) : Bool := x.exponent == 2047 && x.fraction == 0

def isZero (x : Double) : Bool := x.exponent == 0 && x.fraction == 0

/-- Equality of the values that two doubles stand for. -/
def ieeeEq (x y : Double) : Bool :=
  !x.isNaN && !y.isNaN && (x.bits == y.bits || (x.isZero && y.isZero))

theorem ieeeEq_nan (x y : Double) (h : x.isNaN = true) : x.ieeeEq y = false := by
  simp [ieeeEq, h]

theorem ieeeEq_comm (x y : Double) : x.ieeeEq y = y.ieeeEq x := by
  unfold ieeeEq
  rw [Bool.and_comm (!x.isNaN), Bool.and_comm x.isZero, BEq.comm (a := x.bits)]

/-- The magnitude of a finite double as `m · 2 ^ q`. -/
def significand (x : Double) : Nat :=
  if x.exponent == 0 then x.fraction else x.fraction + exponentUnit

/-- The `q` of the magnitude `m · 2 ^ q`. -/
def scale (x : Double) : Int :=
  if x.exponent == 0 then -1074 else (x.exponent : Int) - 1075

/-- Whether the neighbour below is nearer than the one above: at a power of two
the spacing changes. -/
def lowerGapIsHalf (x : Double) : Bool := x.fraction == 0 && 1 < x.exponent

end Double

end RowStore
