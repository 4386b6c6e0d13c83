import PocketCalc.Rational

/-!
# Decimal numbers and their two notations

A `Decimal` is a coefficient times a power of ten. `reduced` moves trailing zeros of the coefficient
into the exponent and keeps the value; of a reduced decimal neither notation writes a zero at the
end of the fraction or a point with nothing after it.
-/

namespace PocketCalc

open Rational (digitCount)

/-- The number `coefficient * 10 ^ exponent`. -/
structure Decimal where
  coefficient : Nat
  exponent : Int
deriving DecidableEq, Repr

namespace Decimal

/-- The rational a decimal stands for. -/
def value (d : Decimal) : Rat := d.coefficient * 10 ^ d.exponent

/-- The digits of the coefficient. -/
def digits (d : Decimal) : List Char := Nat.toDigits 10 d.coefficient

/-- The power of ten at the first digit. -/
def leading (d : Decimal) : Int := digitCount 10 d.coefficient - 1 + d.exponent

/-- The same number with no zero at the end of the coefficient; zero stays as it is. -/
def reduced (d : Decimal) : Decimal :=
  if h : d.coefficient ≠ 0 ∧ d.coefficient % 10 = 0 then
    reduced ⟨d.coefficient / 10, d.exponent + 1⟩
  else d
termination_by d.coefficient
decreasing_by exact Nat.div_lt_self (Nat.pos_of_ne_zero h.1) (by decide)

theorem reduced_of_dvd {d : Decimal} (h0 : d.coefficient ≠ 0) (h : d.coefficient % 10 = 0) :
    d.reduced = reduced ⟨d.coefficient / 10, d.exponent + 1⟩ := by
  rw [reduced]
  simp [h0, h]

/-- Moving one zero from the coefficient into the exponent keeps the value. -/
theorem value_div_ten {c : Nat} (h : c % 10 = 0) (e : Int) :
    value ⟨c / 10, e + 1⟩ = value ⟨c, e⟩ := by
  have hc : (c : Rat) = (c / 10 : Nat) * 10 := by
    rw [← Rat.natCast_ofNat, ← Rat.natCast_mul]
    congr 1
    omega
  simp only [value]
  rw [Rat.zpow_add_one (by decide), hc]
  grind

/-- Reducing keeps the value. -/
@[simp] theorem value_reduced (d : Decimal) : d.reduced.value = d.value := by
  fun_induction reduced d with
  | case1 d h ih => rw [ih, value_div_ten h.2]
  | case2 => rfl

/-- The coefficient of a reduced decimal has no zero at its end, unless it is zero. -/
theorem coefficient_reduced (d : Decimal) :
    d.reduced.coefficient = 0 ∨ d.reduced.coefficient % 10 ≠ 0 := by
  fun_induction reduced d with
  | case1 d h ih => exact ih
  | case2 d h => omega

/-! ## Notations -/

/-- Positional notation, with a digit on each side of the point when there is one. -/
def fixed (d : Decimal) : List Char :=
  if 0 ≤ d.exponent then d.digits ++ List.replicate d.exponent.toNat '0'
  else
    let places := (-d.exponent).toNat
    let padded := d.digits.leftpad (places + 1) '0'
    padded.take (padded.length - places) ++ '.' :: padded.drop (padded.length - places)

/-- A sign and at least two digits. -/
def exponentText (e : Int) : List Char :=
  (if e < 0 then '-' else '+') :: (Nat.toDigits 10 e.natAbs).leftpad 2 '0'

/-- Scientific notation: the first digit, the others behind a point, and the power of ten. -/
def scientific (d : Decimal) : List Char :=
  d.digits.take 1 ++ (if d.digits.length ≤ 1 then [] else '.' :: d.digits.drop 1) ++
    'e' :: exponentText d.leading

/-- A minus sign before the text of a negative number. -/
def signed : Float.Model.UnpackedFloat.Sign → List Char → List Char
  | .positive, text => text
  | .negative, text => '-' :: text

end Decimal

end PocketCalc
