import PocketCalc.Decimal.Text
import PocketCalc.Proofs.Decimal.Recovery

/-!
# Rounding to significant digits

`RoundsTo p v q` says what rounding to `p` significant digits is, without saying how it is done:
`q` is a multiple of the place of the last digit, at most half a unit away from `v`, and of two such
multiples the even one. There is exactly one such `q` (`RoundsTo.unique`), and `rounded` finds it
(`roundsTo_withSign`).
-/

namespace PocketCalc.Decimal

open Rational
open Float.Model.UnpackedFloat

/-- The number with a sign and an absolute value. -/
def withSign : Sign → Rat → Rat
  | .positive, x => x
  | .negative, x => -x

theorem abs_withSign (s : Sign) {x : Rat} (h : 0 < x) : |withSign s x| = x := by
  cases s with
  | positive => exact abs_of_pos h
  | negative => rw [withSign, abs_neg, abs_of_pos h]

theorem withSign_neg_iff (s : Sign) {x : Rat} (h : 0 < x) : withSign s x < 0 ↔ s = .negative := by
  cases s with
  | positive => simp [withSign, h.le]
  | negative => simp [withSign, h]

/-- `q` is `v` rounded to `p` significant digits: the multiple of the last place of `v` that is at
most half a unit away, and the even one where there are two. -/
def RoundsTo (p : Nat) (v q : Rat) : Prop :=
  ∃ e k : Int, 10 ^ (e + p - 1) ≤ |v| ∧ |v| < 10 ^ (e + p) ∧ q = k * 10 ^ e ∧
    |v - q| ≤ 10 ^ e / 2 ∧ (|v - q| = 10 ^ e / 2 → k % 2 = 0)

/-- The place of the last digit is determined by the number. -/
theorem eq_lastPlace {p : Nat} {x : Rat} {e : Int} (hx : 0 < x) (hlow : 10 ^ (e + p - 1) ≤ x)
    (hhigh : x < 10 ^ (e + p)) : e = lastPlace p x := by
  have hmagnitude : magnitude 10 x = e + p - 1 := by
    refine magnitude_eq_of_bounds (by norm_num) hx (by exact_mod_cast hlow) ?_
    rw [Int.sub_add_cancel]
    exact_mod_cast hhigh
  unfold lastPlace
  omega

/-- Two multiples that are at most half a unit away are half a unit away and neighbours. -/
theorem tie_of_lt {v u : Rat} {k l : Int} (hu : 0 < u) (hk : |v - k * u| ≤ u / 2)
    (hl : |v - l * u| ≤ u / 2) (hlt : k < l) :
    l = k + 1 ∧ |v - k * u| = u / 2 ∧ |v - l * u| = u / 2 := by
  obtain ⟨hkbelow, hkabove⟩ := abs_le.mp hk
  obtain ⟨hlbelow, hlabove⟩ := abs_le.mp hl
  have hle : l ≤ k + 1 := by
    have : (l : Rat) * u ≤ (k + 1) * u := by linarith
    exact_mod_cast le_of_mul_le_mul_right this hu
  have hnext : l = k + 1 := by omega
  subst hnext
  push_cast at hlbelow hlabove ⊢
  refine ⟨rfl, ?_, ?_⟩
  · rw [abs_of_nonneg (by linarith)]
    linarith
  · rw [abs_of_nonpos (by linarith)]
    linarith

/-- There is only one number that another one is rounded to. -/
theorem RoundsTo.unique {p : Nat} {v q r : Rat} (hv : v ≠ 0) (hq : RoundsTo p v q)
    (hr : RoundsTo p v r) : r = q := by
  obtain ⟨e, k, hlow, hhigh, rfl, hclose, heven⟩ := hq
  obtain ⟨e', l, hlow', hhigh', rfl, hclose', heven'⟩ := hr
  have hpos : 0 < |v| := abs_pos.mpr hv
  have hplace : e' = e := by rw [eq_lastPlace hpos hlow hhigh, eq_lastPlace hpos hlow' hhigh']
  subst hplace
  have hunit : (0 : Rat) < 10 ^ e' := zpow_pos (by norm_num) _
  -- of two neighbours only one is even
  rcases lt_trichotomy k l with hlt | heq | hgt
  · obtain ⟨hnext, hk, hl⟩ := tie_of_lt hunit hclose hclose' hlt
    have hk2 := heven hk
    have hl2 := heven' hl
    omega
  · rw [heq]
  · obtain ⟨hnext, hl, hk⟩ := tie_of_lt hunit hclose' hclose hgt
    have hk2 := heven hk
    have hl2 := heven' hl
    omega

theorem RoundsTo.neg {p : Nat} {v q : Rat} (h : RoundsTo p v q) : RoundsTo p (-v) (-q) := by
  obtain ⟨e, k, hlow, hhigh, rfl, hclose, heven⟩ := h
  have hdist : |-v - -(k * 10 ^ e)| = |v - k * 10 ^ e| := by rw [neg_sub_neg, abs_sub_comm]
  refine ⟨e, -k, by rwa [abs_neg], by rwa [abs_neg], by push_cast; ring, by rwa [hdist], ?_⟩
  intro htie
  rw [hdist] at htie
  have := heven htie
  omega

/-- Rounding finds the number that is rounded to. -/
theorem roundsTo_rounded {p : Nat} {x : Rat} (hx : 0 < x) :
    RoundsTo p x (rounded p x).value := by
  have hunit : (0 : Rat) < 10 ^ lastPlace p x := zpow_pos (by norm_num) _
  have hplace : lastPlace p x + p - 1 = magnitude 10 x := by
    unfold lastPlace
    omega
  have hnonneg : 0 ≤ halfEven (x / 10 ^ lastPlace p x) :=
    le_halfEven (by push_cast; positivity)
  obtain ⟨k, hk⟩ := Int.eq_ofNat_of_zero_le hnonneg
  have hrounded : rounded p x = ⟨k, lastPlace p x⟩ := by
    unfold rounded roundedAt
    rw [hk, Int.toNat_natCast]
  -- in units of the last place the error is that of the nearest integer
  have herror : |x - k * 10 ^ lastPlace p x| =
      |x / 10 ^ lastPlace p x - halfEven (x / 10 ^ lastPlace p x)| * 10 ^ lastPlace p x := by
    rw [abs_sub_mul hunit, hk]
    rfl
  have hhalf := abs_sub_halfEven_le_half (x / 10 ^ lastPlace p x)
  refine ⟨lastPlace p x, k, ?_, ?_, by rw [hrounded]; rfl, ?_, ?_⟩
  · rw [abs_of_pos hx, hplace]
    exact_mod_cast zpow_magnitude_le (b := 10) (by norm_num) hx
  · rw [abs_of_pos hx, ← Int.sub_add_cancel (lastPlace p x + p) 1, hplace]
    exact_mod_cast lt_zpow_magnitude_add_one (b := 10) (by norm_num) hx
  · rw [hrounded, value]
    push_cast
    rw [herror]
    linarith [mul_le_mul_of_nonneg_right hhalf hunit.le]
  · intro htie
    rw [hrounded, value] at htie
    push_cast at htie
    rw [herror] at htie
    have hexact : |x / 10 ^ lastPlace p x - halfEven (x / 10 ^ lastPlace p x)| = 1 / 2 := by
      apply mul_right_cancel₀ hunit.ne'
      linarith
    rw [← hk]
    exact halfEven_even_of_tie hexact

theorem roundsTo_withSign {p : Nat} {x : Rat} (hx : 0 < x) (s : Sign) :
    RoundsTo p (withSign s x) (withSign s (rounded p x).value) := by
  cases s with
  | positive => exact roundsTo_rounded hx
  | negative => exact (roundsTo_rounded hx).neg

end PocketCalc.Decimal
