import PocketCalc.Proofs.Decimal.FinalZeros
import PocketCalc.Proofs.Decimal.Recovery

/-!
# Rounding twice at one place

Positional notation rounds a number a second time, at a place that was found by the first rounding.
Both roundings give the same digits, also where the first one is carried to the next power of ten
(`roundedAt_significant`). So general notation is a notation of one reduced decimal
(`unsignedText_eq`).
-/

namespace PocketCalc.Decimal

open Rational

/-! ## Significant digits -/

/-- The number of digits is determined by the powers of ten around a number. -/
theorem digitCount_eq_of_bounds {p c : Nat} (hp : 1 ≤ p) (hlow : 10 ^ (p - 1) ≤ c)
    (hhigh : c < 10 ^ p) : digitCount 10 c = p := by
  have hpos : 0 < 10 ^ (p - 1) := by positivity
  have hle : p - 1 < digitCount 10 c :=
    (Nat.pow_lt_pow_iff_right (by norm_num)).mp (hlow.trans_lt (lt_pow_digitCount (by norm_num) c))
  have hge : digitCount 10 c - 1 < p :=
    (Nat.pow_lt_pow_iff_right (by norm_num)).mp
      ((pow_digitCount_sub_one_le (by norm_num) (by omega)).trans_lt hhigh)
  omega

section Significant

variable {p : Nat} {x : Rat} (hp : 1 ≤ p)

include hp

theorem pow_eq_pow_pred_mul : 10 ^ p = 10 ^ (p - 1) * 10 := by
  rw [← pow_succ, Nat.sub_add_cancel hp]

theorem pow_div_ten : 10 ^ p / 10 = 10 ^ (p - 1) := by
  rw [pow_eq_pow_pred_mul hp, Nat.mul_div_cancel _ (by norm_num)]

/-- Rounding that is carried to the next power of ten has a digit too many, a zero. -/
theorem significant_of_carry (h : (rounded p x).coefficient = 10 ^ p) :
    significant p x = ⟨10 ^ (p - 1), lastPlace p x + 1⟩ := by
  have hcount : digitCount 10 (rounded p x).coefficient = p + 1 := by
    rw [h]
    exact digitCount_eq_of_bounds (by omega) (Nat.le_refl _)
      (Nat.pow_lt_pow_right (by norm_num) (Nat.lt_succ_self p))
  rw [significant, if_pos (by omega), h, pow_div_ten hp]
  rfl

variable (hx : 0 < x)

include hx

theorem significant_of_no_carry (h : (rounded p x).coefficient ≠ 10 ^ p) :
    significant p x = rounded p x := by
  obtain ⟨hlow, hhigh⟩ := coefficient_rounded_bounds hp hx
  have hcount := digitCount_eq_of_bounds hp hlow (lt_of_le_of_ne hhigh h)
  rw [significant, if_neg (by omega)]

/-- Moving the last place up after a carry keeps the value. -/
theorem value_significant : (significant p x).value = (rounded p x).value := by
  by_cases hcarry : (rounded p x).coefficient = 10 ^ p
  · have hmod : 10 ^ p % 10 = 0 := by rw [pow_eq_pow_pred_mul hp, Nat.mul_mod_left]
    rw [significant_of_carry hp hcarry, ← pow_div_ten hp, value_div_ten hmod, ← hcarry]
    rfl
  · rw [significant_of_no_carry hp hx hcarry]

theorem coefficient_significant_bounds :
    10 ^ (p - 1) ≤ (significant p x).coefficient ∧ (significant p x).coefficient < 10 ^ p := by
  obtain ⟨hlow, hhigh⟩ := coefficient_rounded_bounds hp hx
  by_cases hcarry : (rounded p x).coefficient = 10 ^ p
  · rw [significant_of_carry hp hcarry]
    exact ⟨Nat.le_refl _, Nat.pow_lt_pow_right (by norm_num) (by omega)⟩
  · rw [significant_of_no_carry hp hx hcarry]
    exact ⟨hlow, lt_of_le_of_ne hhigh hcarry⟩

theorem coefficient_significant_pos : 0 < (significant p x).coefficient := by
  have hpos : 0 < 10 ^ (p - 1) := by positivity
  exact hpos.trans_le (coefficient_significant_bounds hp hx).1

theorem digitCount_significant : digitCount 10 (significant p x).coefficient = p :=
  digitCount_eq_of_bounds hp (coefficient_significant_bounds hp hx).1
    (coefficient_significant_bounds hp hx).2

theorem leading_significant :
    (significant p x).leading - (p - 1) = (significant p x).exponent := by
  rw [leading, digitCount_significant hp hx]
  omega

/-- What is written of the significant digits is what is written of the rounded number. -/
theorem reduced_significant : (significant p x).reduced = (rounded p x).reduced := by
  have hne : (significant p x).coefficient ≠ 0 := (coefficient_significant_pos hp hx).ne'
  refine eq_of_value_eq ((coefficient_reduced _).resolve_left (coefficient_reduced_ne_zero hne))
    (coefficient_reduced_rounded hp hx).1 ?_
  rw [value_reduced, value_reduced, value_significant hp hx]

/-- Where rounding is carried to the next power of ten, the number is next to that power. -/
theorem halfEven_of_carry (h : (rounded p x).coefficient = 10 ^ p) :
    halfEven (x / 10 ^ (lastPlace p x + 1)) = (10 ^ (p - 1) : Nat) := by
  have hhigh := (div_lastPlace_bounds hp hx).2
  have hround : (10 : Rat) ^ p ≤ x / 10 ^ lastPlace p x + 1 / 2 := by
    have hcoeff : halfEven (x / 10 ^ lastPlace p x) = (10 ^ p : Nat) := by
      have hpos : 0 < 10 ^ p := by positivity
      have : (halfEven (x / 10 ^ lastPlace p x)).toNat = 10 ^ p := h
      omega
    have := halfEven_sub_half_le (x / 10 ^ lastPlace p x)
    rw [hcoeff] at this
    push_cast at this
    linarith
  have hten : x / 10 ^ (lastPlace p x + 1) = x / 10 ^ lastPlace p x / 10 := by
    rw [Rat.zpow_add_one (by norm_num), div_mul_eq_div_div]
  have hpow : (10 : Rat) ^ p = 10 ^ (p - 1) * 10 := by exact_mod_cast pow_eq_pow_pred_mul hp
  apply halfEven_eq_of_abs_sub_lt
  rw [hten, abs_lt]
  push_cast
  constructor <;> linarith

/-- **Two roundings.** Rounding once more at the last significant place finds the same digits. -/
theorem roundedAt_significant :
    roundedAt (significant p x).exponent x = significant p x := by
  by_cases hcarry : (rounded p x).coefficient = 10 ^ p
  · rw [significant_of_carry hp hcarry]
    simp only [roundedAt, halfEven_of_carry hp hx hcarry, Int.toNat_natCast]
  · rw [significant_of_no_carry hp hx hcarry]
    rfl

end Significant

/-! ## Scientific notation -/

section Mantissa

variable {d : Decimal}

/-- The digits of a decimal with the point behind the first one. -/
def mantissa (d : Decimal) : Decimal := ⟨d.coefficient, 1 - digitCount 10 d.coefficient⟩

theorem value_mantissa (d : Decimal) : d.mantissa.value = d.value * 10 ^ (-d.leading) := by
  have hexp : (1 : Int) - digitCount 10 d.coefficient = d.exponent + -d.leading := by
    unfold leading
    omega
  simp only [value, mantissa, hexp]
  rw [Rat.zpow_add (by norm_num), mul_assoc]

theorem leading_reduced (h : d.coefficient ≠ 0) : d.reduced.leading = d.leading := by
  rw [leading_eq_magnitude (Nat.pos_of_ne_zero (coefficient_reduced_ne_zero h)),
    leading_eq_magnitude (Nat.pos_of_ne_zero h), value_reduced]

theorem reduced_mantissa (h : d.coefficient ≠ 0) : d.mantissa.reduced = d.reduced.mantissa := by
  have hne := coefficient_reduced_ne_zero h
  refine eq_of_value_eq ((coefficient_reduced _).resolve_left (coefficient_reduced_ne_zero h))
    ((coefficient_reduced d).resolve_left hne) ?_
  rw [value_reduced, value_mantissa, value_mantissa, value_reduced, leading_reduced h]

theorem scientific_eq (d : Decimal) :
    d.scientific = d.mantissa.fixed ++ 'e' :: exponentText d.leading := by
  have hcount : digitCount 10 d.coefficient = d.digits.length := rfl
  have hpos : 0 < d.digits.length := Nat.length_toDigits_pos
  have htext : d.mantissa.fixed =
      d.digits.take 1 ++ if d.digits.length ≤ 1 then [] else '.' :: d.digits.drop 1 := by
    unfold mantissa
    rw [hcount]
    by_cases hone : d.digits.length ≤ 1
    · have hexp : (1 : Int) - d.digits.length = 0 := by omega
      rw [hexp, if_pos hone, List.take_of_length_le hone]
      simp [fixed, digits]
    · obtain ⟨n, hn⟩ : ∃ n, d.digits.length = n + 1 := ⟨d.digits.length - 1, by omega⟩
      have hexp : (1 : Int) - d.digits.length = -n := by omega
      have hpadded : padded d.coefficient n = d.digits := padded_of_lt (hn ▸ Nat.lt_succ_self n)
      have hcut : n + 1 - n = 1 := by omega
      rw [hexp, if_neg hone, fixed_of_places _ (by omega), hpadded, hn, hcut]
  rw [scientific, htext]

/-- Without its final zeros, the text of a mantissa is the mantissa of the reduced decimal. -/
theorem withoutFinalZeros_mantissaText (h : d.coefficient ≠ 0) :
    withoutFinalZeros (mantissaText (digitCount 10 d.coefficient) d) =
      d.reduced.mantissa.fixed := by
  have hmantissa : mantissaText (digitCount 10 d.coefficient) d = d.mantissa.fixed := rfl
  have hne : d.mantissa.coefficient ≠ 0 := h
  rw [hmantissa, withoutFinalZeros_fixed hne, reduced_mantissa h]

end Mantissa

/-! ## General notation -/

/-- The general notation of a reduced decimal of `p` digits. -/
def generalText (p : Nat) (d : Decimal) : List Char :=
  if isScientific p d then d.scientific else d.fixed

/-- General notation is a notation of the rounded number without zeros at its end. -/
theorem unsignedText_eq {p : Nat} {x : Rat} (hp : 1 ≤ p) (hx : 0 < x) :
    unsignedText p x = generalText p (rounded p x).reduced := by
  have hne : (significant p x).coefficient ≠ 0 := (coefficient_significant_pos hp hx).ne'
  have hleading := leading_reduced hne
  have hmantissa := withoutFinalZeros_mantissaText hne
  rw [digitCount_significant hp hx] at hmantissa
  have hform : isScientific p (significant p x).reduced = isScientific p (significant p x) := by
    rw [isScientific, isScientific, hleading]
  rw [← reduced_significant hp hx, unsignedText, generalText, hform]
  by_cases hsci : isScientific p (significant p x) = true
  · simp only [if_pos hsci, hmantissa, scientific_eq, hleading]
  · simp only [if_neg hsci, leading_significant hp hx, roundedAt_significant hp hx,
      withoutFinalZeros_fixed hne]

end PocketCalc.Decimal
