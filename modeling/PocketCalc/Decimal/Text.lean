import PocketCalc.Binary64
import PocketCalc.Decimal.Basic

/-!
# The texts of a double

A double is printed in two ways, and each first chooses a decimal.

General notation is the text of a result: the exact value rounded to a number of significant digits
(`significant`), trailing zeros dropped, in scientific notation when the power of ten at the first
digit is below `-4` or not below the number of digits, and in positional notation otherwise. The
notation is chosen after rounding, so `999999.5` to six digits is `1e+06`. Zero has no sign.
Scientific notation shows the significant digits that the choice was made by. Positional notation
rounds the exact value once more, at the place that the choice gives to the last digit.

Plain notation is the text of a double inside a list of tokens or a message: the shortest digits
that read back (`shortest`), in positional notation whatever the size, with the sign of zero kept.
-/

namespace PocketCalc.Decimal

open Binary64 (nearestWord unpacked scaled)
open Rational

/-! ## A number of significant digits

`roundedAt e x` is the multiple of `10 ^ e` that is nearest to the positive rational `x`, a tie
going to the even multiple, and `rounded p x` the number with `p` significant digits. Rounding up to
the next power of ten leaves a coefficient of `p + 1` digits; `significant` moves the last place up
then, so that there are always `p`. -/

/-- The multiple of `10 ^ e` nearest to `x`, ties to even. -/
def roundedAt (e : Int) (x : Rat) : Decimal := ⟨(halfEven (x / 10 ^ e)).toNat, e⟩

/-- The exponent of the last of `p` significant digits of `x`. -/
def lastPlace (p : Nat) (x : Rat) : Int := magnitude 10 x - (p - 1)

/-- The decimal of `p` significant digits nearest to `x`, ties to even. -/
def rounded (p : Nat) (x : Rat) : Decimal := roundedAt (lastPlace p x) x

/-- The same number with exactly `p` digits. -/
def significant (p : Nat) (x : Rat) : Decimal :=
  let d := rounded p x
  if p < digitCount 10 d.coefficient then ⟨d.coefficient / 10, d.exponent + 1⟩ else d

/-! ## General notation -/

/-- Whether a number rounded to `p` digits is written with a power of ten. -/
def isScientific (p : Nat) (d : Decimal) : Bool := d.leading < -4 || (p : Int) ≤ d.leading

/-- Drops the zeros at the end of a text with a point, and the point when it comes to the end. -/
def withoutFinalZeros (text : List Char) : List Char :=
  if '.' ∈ text then ((text.reverse.dropWhile (· == '0')).dropWhile (· == '.')).reverse else text

/-- The text of the digits of `d` with the point behind the first one. `d` has `p` digits. -/
def mantissaText (p : Nat) (d : Decimal) : List Char := fixed ⟨d.coefficient, 1 - p⟩

/-- The general notation of a positive rational with `p` significant digits. -/
def unsignedText (p : Nat) (x : Rat) : List Char :=
  let d := significant p x
  if isScientific p d then withoutFinalZeros (mantissaText p d) ++ 'e' :: exponentText d.leading
  else withoutFinalZeros (roundedAt (d.leading - (p - 1)) x).fixed

/-- The general notation of a double with `precision` significant digits, at least one. -/
def general (precision : Nat) (x : Float) : String :=
  let p := max precision 1
  match unpacked x with
  | .notANumber => "nan"
  | .infinity s => String.ofList (signed s "inf".toList)
  | .zero _ => "0"
  | .finite s m e _ => String.ofList (signed s (unsignedText p (scaled m e)))

/-- The number of significant digits of a displayed result. -/
def displayDigits : Nat := 6

/-- The text of a result. -/
def display (x : Float) : String := general displayDigits x

/-! ## The shortest decimal that reads back

Of the decimals whose nearest double is the one nearest to `x`, `shortest x` has the fewest digits,
and of those it is the nearest to `x`, the greater of two equally near. For each number of digits
only two candidates matter, the multiples of the last place on both sides of `x`: if any multiple
reads back, then one of these does. Seventeen digits are always enough; the exact expansion stands
behind them so that the result reads back by construction. -/

/-- Whether the double nearest to `d` is the one with word `w`. -/
def readsAs (w : Nat) (d : Decimal) : Bool := nearestWord d.value == w

/-- The greatest multiple of the `p`-th significant place that is at most `x`. -/
def below (p : Nat) (x : Rat) : Decimal :=
  ⟨(x / 10 ^ lastPlace p x).floor.toNat, lastPlace p x⟩

/-- The next multiple of the same place. -/
def next (d : Decimal) : Decimal := ⟨d.coefficient + 1, d.exponent⟩

/-- The neighbour of `x` on the grid of `p` significant digits that reads as `w`; of two the nearer,
and the upper one of two equally near. -/
def onGrid? (w : Nat) (x : Rat) (p : Nat) : Option Decimal :=
  let lo := below p x
  let hi := lo.next
  match readsAs w lo, readsAs w hi with
  | true, true => if x - lo.value < hi.value - x then some lo else some hi
  | true, false => some lo
  | false, true => some hi
  | false, false => none

/-- The decimal expansion of a rational whose denominator is a power of two. -/
def exact (x : Rat) : Decimal :=
  let places := x.den.log2
  ⟨(x * 10 ^ places).floor.toNat, -places⟩

/-- The decimal with the fewest digits that reads back as the double nearest to `x`. -/
def shortest (x : Rat) : Decimal :=
  let w := nearestWord x
  ((List.range' 1 17).findSome? (onGrid? w x)).getD (exact x)

/-! ## Plain notation -/

/-- The plain notation of a double. -/
def plain (x : Float) : String :=
  match unpacked x with
  | .notANumber => "NaN"
  | .infinity s => String.ofList (signed s "inf".toList)
  | .zero s => String.ofList (signed s ['0'])
  | .finite s m e _ => String.ofList (signed s (shortest (scaled m e)).reduced.fixed)

end PocketCalc.Decimal
