import PocketCalc.Rational

/-!
# Doubles and the rationals they stand for

A double is taken apart into its sign, an integer significand and a power of two; `value?` is the
rational it stands for, which the infinities and the quiet value `NaN` do not have. What the
calculator asks of a double beyond arithmetic (is it whole, which decimal is it) is asked of this
rational, where nothing is rounded.

Back from a rational, non-negative doubles are numbered by their 64-bit words: the words below
`infinityWord` run through the finite ones in increasing order. `nearestWord x` is the word of the
double nearest to `x`, of two equally near the one with the even significand; from the midpoint
above the greatest finite double on it is the word of infinity.

Between two powers of two the doubles are the multiples of one power of two, `spacing x`, down to
the multiples of `2 ^ (-1074)` around zero, so rounding is `halfEven` of a quotient. A significand
that rounds up to the next power of two carries into the exponent field by itself.
-/

namespace PocketCalc.Binary64

open Float.Model (UnpackedFloat)
open Rational

/-! ## The value of a double -/

/-- Sign, significand and exponent of a double, or which of the special values it is. -/
def unpacked (x : Float) : UnpackedFloat :=
  UnpackedFloat.unpack .binary64 x.toBits.toBitVec

/-- The absolute value of a number with significand `m` and exponent `e`. -/
def scaled (m : Nat) (e : Int) : Rat := m * 2 ^ e

/-- The rational a finite double stands for; both zeros stand for `0`. -/
def value? (x : Float) : Option Rat :=
  match unpacked x with
  | .notANumber | .infinity _ => none
  | .zero _ => some 0
  | .finite .positive m e _ => some (scaled m e)
  | .finite .negative m e _ => some (-scaled m e)

/-- Whether a double is a whole number; no special value is. -/
def isWhole (x : Float) : Bool := (value? x).any fun v => v.den == 1

/-! ## The nearest double -/

/-- The number of doubles between two neighbouring powers of two; the exponent field of a word
counts in this unit. -/
def binadeSize : Nat := 1 <<< 52

/-- The word of positive infinity. -/
def infinityWord : Nat := 2047 * binadeSize

/-- The distance of neighbouring doubles around `x` is two to this power. -/
def spacing (x : Rat) : Int := max (-1074) (magnitude 2 x - 52)

/-- The word of the double nearest to a non-negative rational. -/
def nearestWord (x : Rat) : Nat :=
  if x ≤ 0 then 0
  else
    let q := spacing x
    min infinityWord ((q + 1074).toNat * binadeSize + (halfEven (x / 2 ^ q)).toNat)

/-- The double nearest to a non-negative rational. -/
def nearest (x : Rat) : Float := Float.ofBits (UInt64.ofNat (nearestWord x))

/-- No rational rounds past infinity. -/
theorem nearestWord_le_infinityWord (x : Rat) : nearestWord x ≤ infinityWord := by
  unfold nearestWord
  split
  · exact Nat.zero_le _
  · exact Nat.min_le_left _ _

/-! ## Remainders

What is left of a double once as many whole periods as fit into its absolute value are taken away.
By a whole number below `2 ^ 53` it is itself a double, so rounding the exact remainder changes
nothing. -/

/-- What is left of a non-negative rational after the whole multiples of `n` in it. -/
def leftover (n : Nat) (x : Rat) : Rat := x - n * (x / n).floor

/-- The remainder of `x` by the period `n`, with the sign of `x`; a special value has none. -/
def truncatedRemainder (x : Float) (n : Nat) : Float :=
  match unpacked x with
  | .notANumber | .infinity _ => 0 / 0
  | .zero _ => x
  | .finite .positive m e _ => nearest (leftover n (scaled m e))
  | .finite .negative m e _ => -nearest (leftover n (scaled m e))

/-- The remainder of `x` by the period `n` that lies in `[0, n)` up to rounding: a negative
remainder is moved up by one period. -/
def euclideanRemainder (x : Float) (n : Nat) : Float :=
  let r := truncatedRemainder x n
  if r < 0 then r + n.toFloat else r

end PocketCalc.Binary64
