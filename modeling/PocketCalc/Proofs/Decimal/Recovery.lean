import PocketCalc.Decimal.Text
import PocketCalc.Proofs.Rational.Rounding

/-!
# Decimals recovered by rounding

A decimal with no zero at the end of its coefficient is determined by its value (`eq_of_value_eq`).
So when rounding finds the value again, `reduced` finds the decimal again. It does for every decimal
of at most fifteen digits and every rational as near to it as its nearest double is
(`reduced_rounded_of_close`).
-/

namespace PocketCalc.Decimal

open Rational

/-! ## Reduced decimals -/

/-- A decimal on a finer grid. -/
theorem value_eq_of_le {d : Decimal} {e : Int} (h : e ≤ d.exponent) :
    d.value = ((d.coefficient * 10 ^ (d.exponent - e).toNat : Nat) : Rat) * 10 ^ e := by
  obtain ⟨n, hn⟩ := Int.eq_ofNat_of_zero_le (by omega : 0 ≤ d.exponent - e)
  have hexp : d.exponent = n + e := by omega
  rw [value, hn, hexp, Rat.zpow_add (by decide), Rat.zpow_natCast, Int.toNat_natCast]
  push_cast
  ring

/-- Without a zero at its end, a coefficient does not fit on a coarser grid. -/
theorem exponent_le_of_value_eq {a d : Decimal} (hd : d.coefficient % 10 ≠ 0)
    (h : a.value = d.value) : a.exponent ≤ d.exponent := by
  by_contra hlt
  rw [value_eq_of_le (by omega : d.exponent ≤ a.exponent), value] at h
  have hpos : (10 : Rat) ^ d.exponent ≠ 0 := (zpow_pos (by norm_num) _).ne'
  have hcoeff : a.coefficient * 10 ^ (a.exponent - d.exponent).toNat = d.coefficient := by
    exact_mod_cast mul_right_cancel₀ hpos h
  obtain ⟨n, hn⟩ : ∃ n, (a.exponent - d.exponent).toNat = n + 1 :=
    ⟨(a.exponent - d.exponent).toNat - 1, by omega⟩
  rw [hn, pow_succ, ← mul_assoc] at hcoeff
  omega

/-- Decimals without a zero at the end of the coefficient are determined by their values. -/
theorem eq_of_value_eq {a d : Decimal} (ha : a.coefficient % 10 ≠ 0)
    (hd : d.coefficient % 10 ≠ 0) (h : a.value = d.value) : a = d := by
  have hexp : a.exponent = d.exponent :=
    Int.le_antisymm (exponent_le_of_value_eq hd h) (exponent_le_of_value_eq ha h.symm)
  have hpos : (10 : Rat) ^ d.exponent ≠ 0 := (zpow_pos (by norm_num) _).ne'
  rw [value, value, hexp] at h
  have hcoeff : a.coefficient = d.coefficient := by exact_mod_cast mul_right_cancel₀ hpos h
  cases a
  cases d
  simp_all

theorem coefficient_reduced_le (d : Decimal) : d.reduced.coefficient ≤ d.coefficient := by
  fun_induction reduced d with
  | case1 d h ih => exact ih.trans (Nat.div_le_self _ _)
  | case2 d h => exact Nat.le_refl _

theorem coefficient_reduced_ne_zero {d : Decimal} (h : d.coefficient ≠ 0) :
    d.reduced.coefficient ≠ 0 := by
  fun_induction reduced d with
  | case1 d hd ih => exact ih (by simp only; omega)
  | case2 d hd => exact h

/-- The first digit stands where the value has its magnitude. -/
theorem leading_eq_magnitude {d : Decimal} (h : 0 < d.coefficient) :
    d.leading = magnitude 10 d.value := by
  have hpos : (0 : Rat) < 10 ^ d.exponent := zpow_pos (by norm_num) _
  have hcoeff : (0 : Rat) < d.coefficient := by exact_mod_cast h
  obtain ⟨hlow, hhigh⟩ := natCast_bounds (b := 10) (by norm_num) h
  have hvalue : 0 < d.value := mul_pos hcoeff hpos
  refine (magnitude_eq_of_bounds (by norm_num) hvalue ?_ ?_).symm
  · unfold leading value
    push_cast at hlow ⊢
    rw [Rat.zpow_add (by norm_num)]
    exact mul_le_mul_of_nonneg_right hlow hpos.le
  · unfold leading value
    have hexp : (digitCount 10 d.coefficient : Int) - 1 + d.exponent + 1 =
        digitCount 10 d.coefficient + d.exponent := by omega
    push_cast at hhigh ⊢
    rw [hexp, Rat.zpow_add (by norm_num)]
    exact mul_lt_mul_of_pos_right (by linarith) hpos

/-! ## Rounding -/

section Rounding

variable {p : Nat} {x : Rat}

/-- The quotient that is rounded has `p` digits before its point. -/
theorem div_lastPlace_bounds (hp : 1 ≤ p) (hx : 0 < x) :
    10 ^ (p - 1) ≤ x / 10 ^ lastPlace p x ∧ x / 10 ^ lastPlace p x < 10 ^ p := by
  have hpos : (0 : Rat) < 10 ^ lastPlace p x := zpow_pos (by norm_num) _
  have hlow : (10 : Rat) ^ magnitude 10 x ≤ x := zpow_magnitude_le (by norm_num) hx
  have hhigh : x < (10 : Rat) ^ (magnitude 10 x + 1) := lt_zpow_magnitude_add_one (by norm_num) hx
  constructor
  · rw [le_div_iff₀ hpos, ← Rat.zpow_natCast, ← Rat.zpow_add (by norm_num)]
    have hexp : ((p - 1 : Nat) : Int) + lastPlace p x = magnitude 10 x := by
      unfold lastPlace
      omega
    rwa [hexp]
  · rw [div_lt_iff₀ hpos, ← Rat.zpow_natCast, ← Rat.zpow_add (by norm_num)]
    have hexp : (p : Int) + lastPlace p x = magnitude 10 x + 1 := by
      unfold lastPlace
      omega
    rwa [hexp]

theorem coefficient_rounded_bounds (hp : 1 ≤ p) (hx : 0 < x) :
    10 ^ (p - 1) ≤ (rounded p x).coefficient ∧ (rounded p x).coefficient ≤ 10 ^ p := by
  obtain ⟨hlow, hhigh⟩ := div_lastPlace_bounds hp hx
  have hge : ((10 ^ (p - 1) : Nat) : Int) ≤ halfEven (x / 10 ^ lastPlace p x) :=
    le_halfEven (by exact_mod_cast hlow)
  have hle : halfEven (x / 10 ^ lastPlace p x) ≤ ((10 ^ p : Nat) : Int) :=
    halfEven_le (by exact_mod_cast hhigh.le)
  have hnonneg : 0 ≤ halfEven (x / 10 ^ lastPlace p x) := (Int.natCast_nonneg _).trans hge
  exact ⟨(Int.le_toNat hnonneg).mpr hge, Int.toNat_le.mpr hle⟩

/-- What is written of a rounded number: at most `p` digits, the last of them no zero. -/
theorem coefficient_reduced_rounded (hp : 1 ≤ p) (hx : 0 < x) :
    (rounded p x).reduced.coefficient % 10 ≠ 0 ∧ (rounded p x).reduced.coefficient < 10 ^ p := by
  obtain ⟨hlow, hhigh⟩ := coefficient_rounded_bounds hp hx
  have hpos : 0 < 10 ^ (p - 1) := by positivity
  have hne : (rounded p x).coefficient ≠ 0 := by omega
  refine ⟨(coefficient_reduced _).resolve_left (coefficient_reduced_ne_zero hne), ?_⟩
  by_cases hcarry : (rounded p x).coefficient = 10 ^ p
  · -- rounded up to a power of ten, of which one digit is left
    have hpow : 10 ^ p = 10 ^ (p - 1) * 10 := by rw [← pow_succ, Nat.sub_add_cancel hp]
    rw [reduced_of_dvd hne (by omega)]
    have hle := coefficient_reduced_le ⟨(rounded p x).coefficient / 10, (rounded p x).exponent + 1⟩
    simp only at hle
    omega
  · have hle := coefficient_reduced_le (rounded p x)
    omega

end Rounding

/-! ## Recovery -/

section Recovery

variable {p : Nat} {d : Decimal} {w : Rat}

/-- A rational near to a decimal of at most fifteen digits has no digit before its first one. -/
theorem magnitude_le_of_close (hp : p ≤ 15) (hd : 0 < d.coefficient) (hlt : d.coefficient < 10 ^ p)
    (hw : 0 < w) (hclose : |w - d.value| ≤ d.value / 2 ^ 53) : magnitude 10 w ≤ d.leading := by
  have hpos : (0 : Rat) < 10 ^ d.exponent := zpow_pos (by norm_num) _
  have hsmall : (d.coefficient : Rat) < 2 ^ 53 := by
    have hdigits : d.coefficient < 10 ^ 15 := hlt.trans_le (Nat.pow_le_pow_right (by norm_num) hp)
    have hcast : (d.coefficient : Rat) < 10 ^ 15 := by exact_mod_cast hdigits
    linarith
  -- the error is less than one unit of the last digit, with which the next power is not passed
  have herror : d.value / 2 ^ 53 < 10 ^ d.exponent := by
    have := mul_lt_mul_of_pos_right hsmall hpos
    unfold value
    linarith
  have hnext : d.value + 10 ^ d.exponent ≤ 10 ^ (d.leading + 1) := by
    have hdigits := (natCast_bounds (b := 10) (by norm_num) hd).2
    have hexp : d.leading + 1 = digitCount 10 d.coefficient + d.exponent := by
      unfold leading
      omega
    have hmul := mul_le_mul_of_nonneg_right hdigits hpos.le
    rw [hexp, Rat.zpow_add (by norm_num)]
    unfold value
    push_cast at hmul
    linarith
  have hlt : ¬ d.leading + 1 ≤ magnitude 10 w := by
    rw [le_magnitude_iff (by norm_num) hw]
    have := (abs_le.mp hclose).2
    push_cast
    linarith
  omega

/-- **Recovery.** Of a rational as near to a decimal as its nearest double is, at most fifteen
digits are the digits of the decimal. -/
theorem reduced_rounded_of_close (hp : 1 ≤ p) (hp' : p ≤ 15) (hd : d.coefficient % 10 ≠ 0)
    (hlt : d.coefficient < 10 ^ p) (hclose : |w - d.value| ≤ d.value / 2 ^ 53) :
    (rounded p w).reduced = d := by
  have hcoeff : 0 < d.coefficient := by omega
  have hvalue : 0 < d.value := by
    unfold value
    have : (0 : Rat) < d.coefficient := by exact_mod_cast hcoeff
    positivity
  obtain ⟨hbelow, habove⟩ := abs_le.mp hclose
  have hw : 0 < w := by linarith
  have hplace : lastPlace p w ≤ d.exponent := by
    have hmag := magnitude_le_of_close hp' hcoeff hlt hw hclose
    have hcount : digitCount 10 d.coefficient ≤ p := by
      have hlow := pow_digitCount_sub_one_le (b := 10) (by norm_num) hcoeff
      have := (Nat.pow_lt_pow_iff_right (by norm_num)).mp (hlow.trans_lt hlt)
      omega
    unfold lastPlace
    unfold leading at hmag
    omega
  -- on the grid of the rounding the decimal is a whole number of units, less than half a unit away
  obtain ⟨k, hk⟩ : ∃ k : Nat, d.value = k * 10 ^ lastPlace p w := ⟨_, value_eq_of_le hplace⟩
  have hunit : (0 : Rat) < 10 ^ lastPlace p w := zpow_pos (by norm_num) _
  have hbound : w < 10 ^ 15 * 10 ^ lastPlace p w := by
    have hquot := (div_lastPlace_bounds hp hw).2
    have hpow : (10 : Rat) ^ p ≤ 10 ^ 15 := pow_le_pow_right₀ (by norm_num) hp'
    exact (div_lt_iff₀ hunit).mp (hquot.trans_le hpow)
  have hround : halfEven (w / 10 ^ lastPlace p w) = k := by
    apply halfEven_eq_of_abs_sub_lt
    have hdiff : w / 10 ^ lastPlace p w - ((k : Int) : Rat) =
        (w - d.value) / 10 ^ lastPlace p w := by
      rw [hk, sub_div, mul_div_cancel_right₀ _ hunit.ne']
      push_cast
      rfl
    rw [hdiff, abs_div, abs_of_pos hunit, div_lt_iff₀ hunit]
    linarith
  have hrounded : rounded p w = ⟨k, lastPlace p w⟩ := by
    unfold rounded roundedAt
    rw [hround, Int.toNat_natCast]
  refine eq_of_value_eq (coefficient_reduced_rounded hp hw).1 hd ?_
  rw [value_reduced, hrounded, hk]
  rfl

end Recovery

end PocketCalc.Decimal
