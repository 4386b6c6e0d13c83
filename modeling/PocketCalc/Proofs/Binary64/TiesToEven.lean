import PocketCalc.Proofs.Binary64.Range

/-!
# Nearest, ties to even

`IsNearest v x` says which double a rational `v` that is not negative is rounded to, without saying
how: no finite double lies nearer, of two that are equally near it is the even one, and from the
overflow bound on it is infinity. There is exactly one such double, and `nearest` finds it
(`isNearest_iff`).

Rounding takes a multiple of the spacing of `v`, and the nearest of them. Other doubles are no
danger: one that is no such multiple lies below the binade of `v`, and the beginning of the binade
is a multiple that lies between (`multiple_or_farther`).
-/

namespace PocketCalc.Binary64

open Rational
open Decimal (withSign)
open Float.Model (UnpackedFloat)
open Float.Model.UnpackedFloat

variable {v a b : Rat} {x y : Float}

/-- `x` is the double that a rational `v`, which is not negative, is rounded to. -/
structure IsNearest (v : Rat) (x : Float) : Prop where
  /-- There is no sign, also not that of a zero. -/
  sign : x.toBits.toNat < 2 ^ 63
  infinite : overflowBound ≤ v → x.isInf = true
  finite : v < overflowBound → ∃ a, value? x = some a
  /-- No finite double lies nearer. -/
  closest : ∀ a y b, value? x = some a → value? y = some b → |v - a| ≤ |v - b|
  /-- When another one is equally near, the significand of `x` is even, and so is its word. -/
  even : ∀ a y b, value? x = some a → value? y = some b → b ≠ a → |v - b| = |v - a| →
    x.toBits.toNat % 2 = 0

/-! ## The doubles around a rational -/

/-- A double is a multiple of `2 ^ e`, or lies below all numbers that have this last place. -/
theorem multiple_or_lt (hy : value? y = some b) (e : Int) :
    (∃ j : Int, b = j * 2 ^ e) ∨ -1074 < e ∧ b < 2 ^ 52 * 2 ^ e := by
  rcases unpacked_cases hy with ⟨s, -, rfl⟩ | ⟨s, m, f, hm, -, hcanonical, rfl⟩
  · exact .inl ⟨0, by simp⟩
  · by_cases hf : e ≤ f
    · have hmultiple := scaled_eq_mul (m := m) hf
      cases s with
      | positive => exact .inl ⟨_, hmultiple⟩
      | negative =>
        refine .inl ⟨-(m <<< (f - e).toNat : Nat), ?_⟩
        rw [withSign, hmultiple, Int.cast_neg, neg_mul]
    · have hlow := hcanonical.least_le
      have hlt := hcanonical.scaled_lt (not_le.mp hf)
      have hpos := Decimal.scaled_pos hm f
      refine .inr ⟨by omega, ?_⟩
      cases s with
      | positive => exact hlt
      | negative => exact (neg_neg_of_pos hpos).trans (hpos.trans hlt)

/-- The number of units of the spacing that a positive rational is rounded to. -/
def units (v : Rat) : Int := halfEven (v / 2 ^ spacing v)

/-- A double that is no multiple of the spacing is farther away than the multiple that is rounded
to. -/
theorem multiple_or_farther (hv : 0 < v) (hy : value? y = some b) :
    (∃ j : Int, b = j * 2 ^ spacing v) ∨ |v - units v * 2 ^ spacing v| < |v - b| := by
  have hunit : (0 : Rat) < 2 ^ spacing v := by positivity
  refine (multiple_or_lt hy (spacing v)).imp_right ?_
  rintro ⟨hnormal, hb⟩
  -- the beginning of the binade lies between the double and `v`
  have hbinade : 2 ^ 52 * 2 ^ spacing v ≤ v := (le_div_iff₀ hunit).mp (le_div_spacing hv hnormal)
  have hle : |v - units v * 2 ^ spacing v| ≤ |v - 2 ^ 52 * 2 ^ spacing v| := by
    rw [abs_sub_mul hunit, abs_sub_mul hunit]
    exact mul_le_mul_of_nonneg_right (abs_sub_halfEven_le _ (2 ^ 52)) hunit.le
  rw [abs_of_nonneg (by linarith : 0 ≤ v - 2 ^ 52 * 2 ^ spacing v)] at hle
  rw [abs_of_nonneg (by linarith : 0 ≤ v - b)]
  linarith

/-- No double is nearer than the multiple that is rounded to. -/
theorem units_closest (hv : 0 < v) (hy : value? y = some b) :
    |v - units v * 2 ^ spacing v| ≤ |v - b| := by
  have hunit : (0 : Rat) < 2 ^ spacing v := by positivity
  rcases multiple_or_farther hv hy with ⟨j, rfl⟩ | hfar
  · rw [abs_sub_mul hunit, abs_sub_mul hunit]
    exact mul_le_mul_of_nonneg_right (abs_sub_halfEven_le _ j) hunit.le
  · exact hfar.le

/-- A double that is equally near is a multiple as well, half a unit away on the other side, and the
multiple that is rounded to is even. -/
theorem tie_of_value (hv : 0 < v) (hy : value? y = some b) (hne : b ≠ units v * 2 ^ spacing v)
    (h : |v - b| = |v - units v * 2 ^ spacing v|) :
    ∃ j : Int, b = j * 2 ^ spacing v ∧ j % 2 = 1 ∧ |v / 2 ^ spacing v - j| = 1 / 2 ∧
      units v % 2 = 0 := by
  have hunit : (0 : Rat) < 2 ^ spacing v := by positivity
  rcases multiple_or_farther hv hy with ⟨j, rfl⟩ | hfar
  · have hj : j ≠ units v := by
      rintro rfl
      exact hne rfl
    rw [abs_sub_mul hunit, abs_sub_mul hunit] at h
    have hequal := mul_right_cancel₀ hunit.ne' h
    have htie := abs_sub_halfEven_eq_half hj hequal
    have heven := halfEven_even_of_tie htie
    exact ⟨j, rfl, odd_of_tie (hequal.trans htie) htie hj heven, hequal.trans htie, heven⟩
  · exact absurd h hfar.ne'

/-! ## Rounding finds the nearest double -/

theorem lt_overflowBound_of_value (hv : 0 ≤ v) (ha : value? (nearest v) = some a) :
    v < overflowBound := by
  rw [← not_le, ← value?_nearest_eq_none_iff hv, ha]
  nofun

theorem value_of_nearest_zero (ha : value? (nearest 0) = some a) : a = 0 := by
  rw [value?_nearest_zero] at ha
  exact (Option.some.inj ha).symm

theorem value_of_nearest (hv : 0 < v) (ha : value? (nearest v) = some a) :
    a = units v * 2 ^ spacing v := by
  have hbound := lt_overflowBound_of_value hv.le ha
  rw [value?_nearest hv ((nearestWord_lt_infinityWord_iff hv).mpr hbound)] at ha
  exact (Option.some.inj ha).symm

theorem isInf_nearest (h : overflowBound ≤ v) : (nearest v).isInf = true := by
  have hv : 0 < v := overflowBound_pos.trans_le h
  have hword : infinityWord ≤ nearestWord v := by
    rw [← not_lt, nearestWord_lt_infinityWord_iff hv]
    exact h.not_gt
  rw [nearest, le_antisymm (nearestWord_le_infinityWord v) hword]
  decide +kernel

/-- The word is a number of binades and then the units, and the size of a binade is even. -/
theorem nearestWord_mod_two (hv : 0 < v) (hbound : v < overflowBound) :
    (nearestWord v : Int) % 2 = units v % 2 := by
  have hsize : binadeSize = 2 ^ 52 := rfl
  have hfinite := (nearestWord_lt_infinityWord_iff hv).mpr hbound
  obtain ⟨k, hk, -, -, hword⟩ := exists_significand hv
  rw [units, hk]
  rw [hsize] at hword
  omega

theorem isNearest_nearest (hv : 0 ≤ v) : IsNearest v (nearest v) := by
  refine ⟨?_, isInf_nearest, ?_, ?_, ?_⟩
  · have hle := nearestWord_le_infinityWord v
    rw [infinityWord_eq] at hle
    rw [toBits_nearest]
    omega
  · intro hbound
    rw [← not_le, ← value?_nearest_eq_none_iff hv] at hbound
    exact Option.ne_none_iff_exists'.mp hbound
  · intro a y b ha hy
    rcases hv.eq_or_lt with rfl | hpos
    · rw [value_of_nearest_zero ha, sub_zero, abs_zero]
      exact abs_nonneg _
    · rw [value_of_nearest hpos ha]
      exact units_closest hpos hy
  · intro a y b ha hy hne htie
    rcases hv.eq_or_lt with rfl | hpos
    · rw [value_of_nearest_zero ha] at htie hne
      rw [sub_zero, abs_zero] at htie
      exact absurd (sub_eq_zero.mp (abs_eq_zero.mp htie)).symm hne
    · have hword := nearestWord_mod_two hpos (lt_overflowBound_of_value hv ha)
      rw [value_of_nearest hpos ha] at htie hne
      obtain ⟨j, -, -, -, heven⟩ := tie_of_value hpos hy hne htie
      rw [toBits_nearest]
      omega

/-! ## There is no other -/

/-- Without a sign, infinity has one word. -/
theorem toBits_of_isInf (hsign : x.toBits.toNat < 2 ^ 63) (hx : x.isInf = true) :
    x.toBits.toNat = infinityWord := by
  obtain ⟨s, hs⟩ := exists_infinity hx
  have hfields := hasFields_ofFields .positive (x.toBits.toNat / 2 ^ 52) (x.toBits.toNat % 2 ^ 52)
  rw [← unpacked_ofBits hsign, ofBits_toNat_toBits, hs] at hfields
  generalize hexponent : x.toBits.toNat / 2 ^ 52 = exponent at hfields
  generalize hfraction : x.toBits.toNat % 2 ^ 52 = fraction at hfields
  cases hfields with
  | infinity =>
    rw [infinityWord_eq]
    omega

/-- A finite double without a sign is the one nearest to its own value. -/
theorem eq_nearest_value (hsign : x.toBits.toNat < 2 ^ 63) (hx : value? x = some a) :
    0 ≤ a ∧ x = nearest a := by
  have hunsigned : Unsigned x := ⟨by rw [isFinite_eq_isSome, hx]; rfl, hsign⟩
  rcases nearest_of_unsigned hunsigned with rfl | ⟨m, e, hm, hunpacked, hnearest⟩
  · rw [value?_zero] at hx
    cases hx
    exact ⟨le_refl _, by decide +kernel⟩
  · rw [value?_of_unpacked hunpacked] at hx
    cases hx
    exact ⟨(Decimal.scaled_pos hm e).le, hnearest.symm⟩

/-- Half a unit away from `v`, an odd number of units is a significand, so it makes an odd word. -/
theorem nearestWord_odd {j : Int} (hv : 0 < v) (hbound : v < overflowBound) (hj : 0 ≤ j)
    (hodd : j % 2 = 1) (htie : |v / 2 ^ spacing v - j| = 1 / 2) :
    nearestWord (j * 2 ^ spacing v) % 2 = 1 := by
  have hsize : binadeSize = 2 ^ 52 := rfl
  have hlow := least_le_spacing v
  obtain ⟨k, rfl⟩ := Int.eq_ofNat_of_zero_le hj
  obtain ⟨a, ha⟩ := Int.eq_ofNat_of_zero_le (by omega : 0 ≤ spacing v + 1074)
  have hexponent : spacing v = a - 1074 := by omega
  obtain ⟨hbelow, habove⟩ := abs_le.mp htie.le
  rw [Int.cast_natCast] at hbelow habove
  have hle : k ≤ 2 ^ 53 := by
    have hquot := div_spacing_lt hv
    have hlt : (k : Rat) < 2 ^ 53 + 1 := by linarith
    exact Nat.le_of_lt_succ (by exact_mod_cast hlt)
  have hlead : a = 0 ∨ 2 ^ 52 ≤ k := by
    by_cases hnormal : -1074 < spacing v
    · have hquot := le_div_spacing hv hnormal
      have hlt : (2 : Rat) ^ 52 < k + 1 := by linarith
      exact .inr (Nat.le_of_lt_succ (by exact_mod_cast hlt))
    · exact .inl (by omega)
  have hplace : a ≤ 2045 := by
    have hmagnitude : ¬ 1024 ≤ magnitude 2 v := by
      rw [le_magnitude_iff (Nat.le_refl _) hv, not_le]
      exact hbound.trans overflowBound_bounds.2
    unfold spacing at ha
    omega
  have hword := nearestWord_scaled (a := a) (k := k) (by omega) (by omega) hlead
    (by rw [hsize, infinityWord_eq]; omega)
  rw [scaled, ← hexponent] at hword
  rw [Int.cast_natCast, hword, hsize]
  omega

theorem IsNearest.value_eq (hv : 0 < v) (hx : IsNearest v x) (ha : value? x = some a)
    (hb : value? (nearest v) = some b) : a = b := by
  have hdist : |v - a| = |v - b| :=
    le_antisymm (hx.closest a _ b ha hb) ((isNearest_nearest hv.le).closest b _ a hb ha)
  by_contra hne
  have heven := hx.even a _ b ha hb (Ne.symm hne) hdist.symm
  obtain ⟨hnonneg, hnearest⟩ := eq_nearest_value hx.sign ha
  have hbound := lt_overflowBound_of_value hv.le hb
  have hunit : (0 : Rat) < 2 ^ spacing v := by positivity
  rw [value_of_nearest hv hb] at hdist hne
  -- two doubles that are equally near are neighbours, and the other one is odd
  obtain ⟨j, rfl, hodd, htie, -⟩ := tie_of_value hv ha hne hdist
  have hpos : 0 ≤ j := by exact_mod_cast nonneg_of_mul_nonneg_left hnonneg hunit
  have hword := nearestWord_odd hv hbound hpos hodd htie
  rw [hnearest, toBits_nearest] at heven
  omega

/-- The nearest double, ties to even, is the one that rounding finds. -/
theorem isNearest_iff (hv : 0 ≤ v) : IsNearest v x ↔ x = nearest v := by
  refine ⟨fun hx => ?_, fun hx => hx ▸ isNearest_nearest hv⟩
  have hnearest := isNearest_nearest hv
  by_cases hbound : v < overflowBound
  · obtain ⟨a, ha⟩ := hx.finite hbound
    obtain ⟨b, hb⟩ := hnearest.finite hbound
    have hvalue : a = b := by
      rcases hv.eq_or_lt with rfl | hpos
      · have hle := hx.closest a _ b ha hb
        rw [value_of_nearest_zero hb, sub_zero, abs_zero] at hle
        rw [value_of_nearest_zero hb]
        exact (sub_eq_zero.mp (abs_nonpos_iff.mp hle)).symm
      · exact hx.value_eq hpos ha hb
    rw [(eq_nearest_value hx.sign ha).2, (eq_nearest_value hnearest.sign hb).2, hvalue]
  · have hle := not_lt.mp hbound
    rw [← ofBits_toNat_toBits x, ← ofBits_toNat_toBits (nearest v),
      toBits_of_isInf hx.sign (hx.infinite hle),
      toBits_of_isInf hnearest.sign (hnearest.infinite hle)]

end PocketCalc.Binary64
