import Mathlib.Algebra.Order.Field.Power
import Mathlib.Data.Rat.Floor
import Mathlib.Tactic.Linarith
import Mathlib.Tactic.Positivity
import PocketCalc.Rational

/-!
# Magnitude and rounding as inequalities

`magnitude` and `halfEven` are computed from digits and floors. What is used of them are the
inequalities that determine them: a positive rational lies between two powers of the base, which
tell its magnitude (`magnitude_eq_of_bounds`), and an integer less than half a unit away is the
nearest one (`halfEven_eq_of_abs_sub_lt`).
-/

namespace PocketCalc.Rational

variable {b : Nat} {x : Rat}

/-! ## Digits -/

theorem lt_pow_digitCount (hb : 2 ≤ b) (n : Nat) : n < b ^ digitCount b n := by
  unfold digitCount
  split
  · next h =>
    subst h
    exact Nat.lt_log2_self
  · exact (Nat.length_toDigits_le_iff hb Nat.length_toDigits_pos).mp (Nat.le_refl _)

theorem pow_digitCount_sub_one_le {n : Nat} (hb : 2 ≤ b) (hn : 0 < n) :
    b ^ (digitCount b n - 1) ≤ n := by
  unfold digitCount
  split
  · next h =>
    subst h
    exact Nat.log2_self_le (by omega)
  · have hpos := Nat.length_toDigits_pos (b := b) (n := n)
    by_cases hone : (Nat.toDigits b n).length = 1
    · rw [hone]
      exact hn
    · -- one digit fewer would not be enough
      by_contra hlt
      have hle : (Nat.toDigits b n).length ≤ (Nat.toDigits b n).length - 1 :=
        (Nat.length_toDigits_le_iff hb (by omega)).mpr (by omega)
      omega

/-! ## Magnitude -/

/-- A whole number lies between the powers of the base that its digits tell. -/
theorem natCast_bounds {n : Nat} (hb : 2 ≤ b) (hn : 0 < n) :
    (b : Rat) ^ ((digitCount b n : Int) - 1) ≤ n ∧
      (n : Rat) + 1 ≤ (b : Rat) ^ (digitCount b n : Int) := by
  have hpos := digitCount_pos b n
  have hexp : (digitCount b n : Int) - 1 = (digitCount b n - 1 : Nat) := by omega
  rw [hexp, zpow_natCast, zpow_natCast]
  constructor
  · exact_mod_cast pow_digitCount_sub_one_le hb hn
  · exact_mod_cast lt_pow_digitCount hb n

/-- A positive rational lies between two powers of the base. Below one, its inverse lies between
`n` and `n + 1` for the whole number whose digits are counted. -/
theorem zpow_magnitude_bounds (hb : 2 ≤ b) (hx : 0 < x) :
    (b : Rat) ^ magnitude b x ≤ x ∧ x < (b : Rat) ^ (magnitude b x + 1) := by
  have hb0 : (0 : Rat) < b := by exact_mod_cast (by omega : 0 < b)
  unfold magnitude
  split
  · next hone =>
    have hfloor : (1 : Int) ≤ x.floor := Rat.le_floor_iff.mpr (by simpa using hone)
    obtain ⟨n, hn⟩ := Int.eq_ofNat_of_zero_le (by omega : 0 ≤ x.floor)
    have hle : (n : Rat) ≤ x := by simpa [hn] using Rat.floor_le x
    have hlt : x < (n : Rat) + 1 := by simpa [hn] using Rat.lt_floor_add_one x
    obtain ⟨hlow, hhigh⟩ := natCast_bounds hb (by omega : 0 < n)
    rw [hn, Int.toNat_natCast, Int.sub_add_cancel]
    exact ⟨hlow.trans hle, hlt.trans_le hhigh⟩
  · next hone =>
    have hinv : 1 < x⁻¹ := (one_lt_inv₀ hx).mpr (by linarith)
    have hceil : 1 < x⁻¹.ceil := Rat.lt_ceil_iff.mpr (by simpa using hinv)
    obtain ⟨n, hn⟩ := Int.eq_ofNat_of_zero_le (by omega : 0 ≤ x⁻¹.ceil - 1)
    have hcount : x⁻¹.ceil.toNat - 1 = n := by omega
    have hlt : (n : Rat) < x⁻¹ := by
      have := Rat.lt_ceil_iff.mp (by omega : x⁻¹.ceil - 1 < x⁻¹.ceil)
      simpa [hn] using this
    have hle : x⁻¹ ≤ (n : Rat) + 1 := by
      have := Rat.le_ceil (x := x⁻¹)
      rw [show x⁻¹.ceil = (n : Int) + 1 by omega] at this
      simpa using this
    obtain ⟨hlow, hhigh⟩ := natCast_bounds hb (by omega : 0 < n)
    rw [hcount]
    constructor
    · rw [zpow_neg]
      exact inv_le_of_inv_le₀ hx (hle.trans hhigh)
    · rw [show -(digitCount b n : Int) + 1 = -((digitCount b n : Int) - 1) by omega, zpow_neg]
      exact lt_inv_of_lt_inv₀ (zpow_pos hb0 _) (hlow.trans_lt hlt)

theorem zpow_magnitude_le (hb : 2 ≤ b) (hx : 0 < x) : (b : Rat) ^ magnitude b x ≤ x :=
  (zpow_magnitude_bounds hb hx).1

theorem lt_zpow_magnitude_add_one (hb : 2 ≤ b) (hx : 0 < x) :
    x < (b : Rat) ^ (magnitude b x + 1) :=
  (zpow_magnitude_bounds hb hx).2

/-- The magnitude is at least `e` exactly from the power `e` on. -/
theorem le_magnitude_iff (hb : 2 ≤ b) (hx : 0 < x) {e : Int} :
    e ≤ magnitude b x ↔ (b : Rat) ^ e ≤ x := by
  have hb1 : (1 : Rat) < b := by exact_mod_cast hb
  constructor
  · intro he
    exact (zpow_le_zpow_right₀ hb1.le he).trans (zpow_magnitude_le hb hx)
  · intro he
    have hlt := he.trans_lt (lt_zpow_magnitude_add_one hb hx)
    have := (zpow_lt_zpow_iff_right₀ hb1).mp hlt
    omega

theorem magnitude_eq_of_bounds (hb : 2 ≤ b) (hx : 0 < x) {e : Int} (hlow : (b : Rat) ^ e ≤ x)
    (hhigh : x < (b : Rat) ^ (e + 1)) : magnitude b x = e := by
  have hle := (le_magnitude_iff hb hx).mpr hlow
  have hlt : ¬ e + 1 ≤ magnitude b x := by
    rw [le_magnitude_iff hb hx]
    exact hhigh.not_ge
  omega

/-! ## The nearest integer -/

/-- Rounding does not pass an integer. -/
theorem le_halfEven {k : Int} (h : (k : Rat) ≤ x) : k ≤ halfEven x := by
  have hbelow := le_halfEven_add_half x
  have hlt : k < halfEven x + 1 := by
    exact_mod_cast (by linarith : (k : Rat) < halfEven x + 1)
  omega

theorem halfEven_le {k : Int} (h : x ≤ (k : Rat)) : halfEven x ≤ k := by
  have habove := halfEven_sub_half_le x
  have hlt : halfEven x < k + 1 := by
    exact_mod_cast (by linarith : (halfEven x : Rat) < k + 1)
  omega

/-- An even integer is reached from half a unit below it on, the midpoint included. -/
theorem le_halfEven_iff_of_even {k : Int} (hk : k % 2 = 0) : k ≤ halfEven x ↔ k - 1 / 2 ≤ x := by
  have hbelow := le_halfEven_add_half x
  have habove := halfEven_sub_half_le x
  constructor
  · intro h
    have : (k : Rat) ≤ halfEven x := by exact_mod_cast h
    linarith
  · intro h
    rcases h.eq_or_lt with htie | hlt
    · have hodd : x = (k - 1 : Int) + 1 / 2 := by
        rw [← htie]
        push_cast
        ring
      have heven := halfEven_tie (k - 1)
      rw [← hodd] at heven
      have hle : k - 1 ≤ halfEven x := le_halfEven (by rw [hodd]; linarith)
      omega
    · have : k - 1 < halfEven x := by
        exact_mod_cast (by linarith : (k : Rat) - 1 < halfEven x)
      omega

/-- An integer less than half a unit away is the nearest one. -/
theorem halfEven_eq_of_abs_sub_lt {k : Int} (h : |x - k| < 1 / 2) : halfEven x = k := by
  obtain ⟨hlow, hhigh⟩ := abs_lt.mp h
  have hbelow := le_halfEven_add_half x
  have habove := halfEven_sub_half_le x
  have hlt : halfEven x < k + 1 := by
    exact_mod_cast (by linarith : (halfEven x : Rat) < k + 1)
  have hgt : k < halfEven x + 1 := by
    exact_mod_cast (by linarith : (k : Rat) < halfEven x + 1)
  omega

theorem abs_sub_halfEven_le_half (x : Rat) : |x - halfEven x| ≤ 1 / 2 := by
  have hbelow := le_halfEven_add_half x
  have habove := halfEven_sub_half_le x
  rw [abs_le]
  constructor <;> linarith

/-- No integer is nearer. -/
theorem abs_sub_halfEven_le (x : Rat) (k : Int) : |x - halfEven x| ≤ |x - k| := by
  by_cases hk : halfEven x = k
  · rw [hk]
  · have hfar : ¬ |x - k| < 1 / 2 := fun h => hk (halfEven_eq_of_abs_sub_lt h)
    exact (abs_sub_halfEven_le_half x).trans (not_lt.mp hfar)

theorem halfEven_even_of_tie (h : |x - halfEven x| = 1 / 2) : halfEven x % 2 = 0 := by
  rcases eq_or_eq_neg_of_abs_eq h with hbelow | habove
  · have hx : x = (halfEven x : Int) + 1 / 2 := by linarith
    rw [hx]
    exact halfEven_tie _
  · have hx : x = (halfEven x - 1 : Int) + 1 / 2 := by
      push_cast
      linarith
    rw [hx]
    exact halfEven_tie _

/-- Another integer that is equally near is half a unit away. -/
theorem abs_sub_halfEven_eq_half {k : Int} (hne : k ≠ halfEven x) (h : |x - k| = |x - halfEven x|) :
    |x - halfEven x| = 1 / 2 := by
  refine le_antisymm (abs_sub_halfEven_le_half x) (not_lt.mp fun hlt => hne ?_)
  exact (halfEven_eq_of_abs_sub_lt (h ▸ hlt)).symm

/-- Two integers that are half a unit away are neighbours, so one of them is odd. -/
theorem odd_of_tie {j k : Int} (hj : |x - j| = 1 / 2) (hk : |x - k| = 1 / 2) (hne : j ≠ k)
    (heven : k % 2 = 0) : j % 2 = 1 := by
  have hle : |(j : Rat) - k| ≤ 1 := by
    have hsum := abs_sub_le (j : Rat) x k
    rw [abs_sub_comm (j : Rat) x, hj, hk] at hsum
    linarith
  have hint : |j - k| ≤ 1 := by exact_mod_cast hle
  rw [abs_le] at hint
  omega

/-- A distance in units of a grid. -/
theorem abs_sub_mul {u : Rat} (hu : 0 < u) (x k : Rat) : |x - k * u| = |x / u - k| * u := by
  rw [← abs_of_pos hu, ← abs_mul, abs_of_pos hu, sub_mul, div_mul_cancel₀ _ hu.ne']

end PocketCalc.Rational
