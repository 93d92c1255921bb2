import RowStore.Double.Basic

/-!
  Shortest decimals — the fewest digits that read back as a given double.

  The reals that round to `m · 2 ^ q` form an interval around it, with its ends
  when `m` is even. For one digit, two digits and so on, the two points of that
  decimal grid next to the value are tried: the first grid with a point in the
  interval wins, of two points the nearer, and of two equally near the larger.
  All comparisons are between natural numbers.
-/

namespace RowStore.Double.Shortest

/-- A value `m · 2 ^ q` and the ends of the interval that rounds to it, all in
quarters of `2 ^ q`. -/
structure Target where
  value : Nat
  low : Nat
  high : Nat
  scale : Int
  closed : Bool

/-- The interval of a finite double. -/
def target (x : Double) : Target :=
  let m := x.significand
  { value := 4 * m
    low := 4 * m - (if x.lowerGapIsHalf then 1 else 2)
    high := 4 * m + 2
    scale := x.scale - 2
    closed := m % 2 == 0 }

/-- A decimal `digits · 10 ^ exponent`. -/
structure Decimal where
  digits : Nat
  exponent : Int
  deriving DecidableEq, Repr

/-- `a · 2 ^ scale` in units that make it and the points of the grid `10 ^ k`
natural numbers. -/
def onBinary (scale k : Int) (a : Nat) : Nat := (a * Nat.pow 10 (-k).toNat) <<< scale.toNat

/-- `n · 10 ^ k` in the same units. -/
def onDecimal (scale k : Int) (n : Nat) : Nat := (n * Nat.pow 10 k.toNat) <<< (-scale).toNat

/-- Whether `n · 10 ^ k` rounds to the target. -/
def Target.contains (t : Target) (n : Nat) (k : Int) : Bool :=
  let p := onDecimal t.scale k n
  let low := onBinary t.scale k t.low
  let high := onBinary t.scale k t.high
  if t.closed then low ≤ p && p ≤ high else low < p && p < high

/-- The grid point below the value or at it. -/
def Target.floor (t : Target) (k : Int) : Nat :=
  onBinary t.scale k t.value / onDecimal t.scale k 1

/-- The better of the two grid points next to the value, if one rounds to it. -/
def Target.hit? (t : Target) (k : Int) : Option Decimal :=
  let n := t.floor k
  match t.contains n k, t.contains (n + 1) k with
  | true, true =>
    if 2 * onBinary t.scale k t.value < onDecimal t.scale k (2 * n + 1) then some ⟨n, k⟩
    else some ⟨n + 1, k⟩
  | true, false => some ⟨n, k⟩
  | false, true => some ⟨n + 1, k⟩
  | false, false => none

/-- The first of `fuel` grids, each ten times finer than the one before, that has
a hit. -/
def Target.search (t : Target) : Nat → Int → Decimal
  | 0, k => ⟨t.floor k, k⟩
  | fuel + 1, k => (t.hit? k).getD (t.search fuel (k - 1))

/-- The zeros between the point and the first digit of a proper fraction
`num / den`, looking at most `fuel` places far. -/
def leadingZeros : Nat → Nat → Nat → Nat
  | 0, _, _ => 0
  | fuel + 1, num, den => if den ≤ num * 10 then 0 else leadingZeros fuel (num * 10) den + 1

/-- The number of digits before the point; for a value below one, minus the zeros
after it. -/
def Target.magnitude (t : Target) : Int :=
  let num := onBinary t.scale 0 t.value
  let den := onDecimal t.scale 0 1
  if den ≤ num then ((Nat.toDigits 10 (num / den)).length : Int)
  else -(leadingZeros 400 num den : Int)

/-- The shortest decimal of a finite double other than zero. Seventeen digits
always suffice. -/
def shortest (x : Double) : Decimal :=
  let t := target x
  t.search 17 (t.magnitude - 1)

end RowStore.Double.Shortest
