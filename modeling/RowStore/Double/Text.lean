import RowStore.Double.Shortest

/-!
  The text of a double — its shortest decimal, always written positionally.

  A whole number has no point, a fraction no trailing zeros, zero keeps its sign,
  and there is never an exponent: `1e21` is a one and twenty-one zeros.
-/

namespace RowStore.Double

/-- `digits · 10 ^ exponent` written out, with a point only before a fraction. -/
def positional (digits : Nat) (exponent : Int) : String :=
  let ds := Nat.toDigits 10 digits
  match exponent with
  | .ofNat zeros => String.ofList (ds ++ List.replicate zeros '0')
  | .negSucc k =>
    let places := k + 1
    if places < ds.length then
      String.ofList (ds.take (ds.length - places) ++ '.' :: ds.drop (ds.length - places))
    else String.ofList ('0' :: '.' :: List.replicate (places - ds.length) '0' ++ ds)

/-- Moves zeros at the end of the digits into a negative exponent. -/
def trimZeros : Nat → Nat → Int → Nat × Int
  | 0, digits, exponent => (digits, exponent)
  | fuel + 1, digits, exponent =>
    if exponent < 0 && digits % 10 == 0 then trimZeros fuel (digits / 10) (exponent + 1)
    else (digits, exponent)

/-- The text of a finite magnitude. -/
def magnitudeText (x : Double) : String :=
  if x.isZero then "0"
  else
    let d := Shortest.shortest x
    let (digits, exponent) := trimZeros 17 d.digits d.exponent
    positional digits exponent

def text (x : Double) : String :=
  if x.isNaN then "NaN"
  else
    let body := if x.isInfinite then "inf" else x.magnitudeText
    if x.negative then "-" ++ body else body

end RowStore.Double
