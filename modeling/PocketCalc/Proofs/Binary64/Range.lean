import PocketCalc.Proofs.Binary64.Comparison

/-!
# The range of doubles

A result is finite as long as its exact value lies below `overflowBound`, half a unit above the
greatest double (`rounded?_eq_none_iff`). A sum, difference or product of finite doubles is a number,
finite or infinite, and so are a quotient by what is not zero and the square root of what is not
negative. Whole numbers up to `2 ^ 53` are doubles themselves (`rounded?_intCast`).
-/

namespace PocketCalc.Binary64

open Rational
open Float.Model (UnpackedFloat)
open Float.Model.UnpackedFloat

/-! ## Overflow -/

/-- The midpoint between the greatest double and the next power of two. -/
def overflowBound : Rat := (2 ^ 53 - 1 / 2) * 2 ^ (971 : Int)

theorem overflowBound_bounds :
    (2 : Rat) ^ (1023 : Int) < overflowBound ∧ overflowBound < (2 : Rat) ^ (1024 : Int) := by
  have hlow : (2 : Rat) ^ (1023 : Int) = 2 ^ 52 * 2 ^ (971 : Int) := by
    rw [← zpow_natCast, ← zpow_add₀ (by norm_num)]
    rfl
  have hhigh : (2 : Rat) ^ (1024 : Int) = 2 ^ 53 * 2 ^ (971 : Int) := by
    rw [← zpow_natCast, ← zpow_add₀ (by norm_num)]
    rfl
  have hunit : (0 : Rat) < 2 ^ (971 : Int) := by positivity
  rw [hlow, hhigh, overflowBound]
  generalize (2 : Rat) ^ (971 : Int) = unit at hunit ⊢
  constructor <;> linarith

theorem overflowBound_pos : 0 < overflowBound :=
  lt_trans (by positivity) overflowBound_bounds.1

variable {v : Rat}

/-- Only a significand that fills the last binade leads to infinity. -/
theorem nearestWord_lt_infinityWord_iff (hv : 0 < v) :
    nearestWord v < infinityWord ↔ v < overflowBound := by
  have hsize : binadeSize = 2 ^ 52 := rfl
  obtain ⟨k, hk, hkle, hlead, hword⟩ := exists_significand hv
  rcases lt_trichotomy (magnitude 2 v) 1023 with h | h | h
  · have hbelow : v < 2 ^ (1023 : Int) :=
      (lt_zpow_magnitude_add_one (b := 2) (Nat.le_refl _) hv).trans_le
        (zpow_le_zpow_right₀ (by norm_num) h)
    exact iff_of_true (nearestWord_lt_infinityWord hv (by omega))
      (hbelow.trans overflowBound_bounds.1)
  · have hspacing : spacing v = 971 := by
      unfold spacing
      omega
    have hunit : (0 : Rat) < 2 ^ (971 : Int) := by positivity
    have hfull : (2 ^ 53 : Int) ≤ halfEven (v / 2 ^ (971 : Int)) ↔ overflowBound ≤ v := by
      rw [le_halfEven_iff_of_even (by norm_num), le_div_iff₀ hunit]
      simp only [Int.cast_pow, Int.cast_ofNat]
      exact Iff.rfl
    rw [hspacing] at hk hword
    rw [hword, hsize, infinityWord_eq, ← not_le, ← not_le, ← hfull, hk]
    omega
  · have habove : 2 ^ (1024 : Int) ≤ v := (le_magnitude_iff (b := 2) (Nat.le_refl _) hv).mp h
    have hspacing : 972 ≤ spacing v := by
      unfold spacing
      omega
    have hword' : ¬ nearestWord v < infinityWord := by
      rw [hword, hsize, infinityWord_eq]
      omega
    exact iff_of_false hword' (overflowBound_bounds.2.trans_le habove).not_gt

theorem value?_nearest_eq_none_iff (hv : 0 ≤ v) :
    value? (nearest v) = none ↔ overflowBound ≤ v := by
  rcases hv.eq_or_lt with rfl | hpos
  · rw [value?_nearest_zero]
    exact iff_of_false nofun overflowBound_pos.not_ge
  · rw [← not_lt, ← nearestWord_lt_infinityWord_iff hpos]
    constructor
    · intro hnone hlt
      rw [value?_nearest hpos hlt] at hnone
      cases hnone
    · intro hword
      have hinf : nearestWord v = infinityWord :=
        le_antisymm (nearestWord_le_infinityWord v) (not_lt.mp hword)
      rw [nearest, hinf]
      decide +kernel

/-- A result is lost exactly from the overflow bound on. -/
theorem rounded?_eq_none_iff (v : Rat) : rounded? v = none ↔ overflowBound ≤ |v| := by
  unfold rounded?
  split
  · next h => rw [value?_nearest_eq_none_iff h, abs_of_nonneg h]
  · next h =>
    have hneg : v < 0 := not_le.mp h
    rw [Option.map_eq_none_iff, value?_nearest_eq_none_iff (by linarith), abs_of_neg hneg]

variable {x y : Float} {a b : Rat}

/-- Doubles themselves lie in the range. -/
theorem abs_lt_overflowBound (hx : value? x = some a) : |a| < overflowBound := by
  rw [← not_le, ← rounded?_eq_none_iff, rounded?_value hx]
  nofun

/-! ## Finite and infinite -/

theorem isFinite_eq_isSome (x : Float) : x.isFinite = (value? x).isSome := by
  have hfinite : x.isFinite = (unpacked x).isFinite := rfl
  rw [hfinite, value?_eq_rational?]
  cases unpacked x <;> rfl

theorem exists_value_of_isFinite (hx : x.isFinite = true) : ∃ a, value? x = some a := by
  rw [isFinite_eq_isSome] at hx
  exact Option.isSome_iff_exists.mp hx

theorem isFinite_iff (x : Float) : x.isFinite = true ↔ ¬ (x.isInf = true ∨ x.isNaN = true) := by
  have hfinite : x.isFinite = (unpacked x).isFinite := rfl
  have hinf : x.isInf = (unpacked x).isInf := rfl
  have hnan : x.isNaN = (unpacked x).isNaN := rfl
  have hkinds : (unpacked x).isFinite = !((unpacked x).isInf || (unpacked x).isNaN) := by
    cases unpacked x <;> rfl
  rw [hfinite, hinf, hnan, hkinds, Bool.not_eq_true', Bool.or_eq_false_iff, not_or,
    Bool.not_eq_true, Bool.not_eq_true]

theorem exists_infinity (hx : x.isInf = true) : ∃ s, unpacked x = .infinity s := by
  have hinf : (unpacked x).isInf = true := hx
  cases hu : unpacked x with
  | infinity s => exact ⟨s, rfl⟩
  | notANumber | zero s | finite s m e hm =>
    rw [hu] at hinf
    cases hinf

/-- Up to the word of infinity the doubles are numbers. -/
theorem isNaN_of_toBits_le (h : x.toBits.toNat ≤ infinityWord) : x.isNaN = false := by
  have hnan : x.isNaN = (unpacked x).isNaN := rfl
  have hpositive := isPositive_unpacked h
  rw [hnan]
  cases hu : unpacked x with
  | notANumber =>
    rw [hu] at hpositive
    exact hpositive.elim
  | infinity s | zero s | finite s m e hm => rfl

/-- Up to the word of infinity the doubles are not negative. -/
theorem zero_le_of_toBits_le (h : x.toBits.toNat ≤ infinityWord) : 0 ≤ x := by
  have hle : (0 : Float) ≤ x ↔
      ((UnpackedFloat.zero .positive).compare (unpacked x)).any (·.isLE) = true :=
    decide_eq_true_iff
  have hpositive := isPositive_unpacked h
  rw [hle]
  cases hu : unpacked x with
  | notANumber =>
    rw [hu] at hpositive
    exact hpositive.elim
  | infinity s | zero s | finite s m e hm =>
    rw [hu] at hpositive
    cases hpositive
    rfl

/-! ## Results that are numbers -/

theorem isNaN_of_value? (hx : value? x = some a) : x.isNaN = false := by
  have hnan : x.isNaN = (unpacked x).isNaN := rfl
  rcases unpacked_cases hx with ⟨s, hu, -⟩ | ⟨s, m, e, hm, hu, -⟩ <;> rw [hnan, hu] <;> rfl

theorem isNaN_roundWithAccuracy (s : Sign) (m : Nat) (e : Int) (r : Accuracy) :
    (roundWithAccuracy .binary64 s m e r).isNaN = false := by
  rcases roundWithAccuracy_cases s m e r with hr | ⟨k, g, hk, hr⟩ <;> rw [hr] <;> rfl

theorem isNaN_normalize (n e : Int) (s : Sign) :
    (UnpackedFloat.normalize .binary64 n e s).isNaN = false := by
  unfold UnpackedFloat.normalize
  split
  · exact isNaN_roundWithAccuracy _ _ _ _
  · rfl
  · exact isNaN_roundWithAccuracy _ _ _ _

theorem isNaN_add (hx : value? x = some a) (hy : value? y = some b) : (x + y).isNaN = false := by
  refine isNaN_ofModel_pack (u := add .binary64 (unpacked x) (unpacked y)) ?_
  rcases unpacked_cases hx with ⟨s, hu, -⟩ | ⟨s, m, e, hm, hu, -⟩ <;>
    rcases unpacked_cases hy with ⟨t, hv, -⟩ | ⟨t, n, f, hn, hv, -⟩ <;> rw [hu, hv]
  · cases s <;> cases t <;> rfl
  · rfl
  · rfl
  · exact isNaN_normalize _ _ _

theorem isNaN_sub (hx : value? x = some a) (hy : value? y = some b) : (x - y).isNaN = false := by
  have hneg : value? (-y) = some (-b) := by
    rw [value?_neg, hy]
    rfl
  rw [sub_eq_add]
  exact isNaN_add hx hneg

theorem isNaN_mul (hx : value? x = some a) (hy : value? y = some b) : (x * y).isNaN = false := by
  refine isNaN_ofModel_pack (u := mul .binary64 (unpacked x) (unpacked y)) ?_
  rcases unpacked_cases hx with ⟨s, hu, -⟩ | ⟨s, m, e, hm, hu, -⟩ <;>
    rcases unpacked_cases hy with ⟨t, hv, -⟩ | ⟨t, n, f, hn, hv, -⟩ <;> rw [hu, hv]
  · rfl
  · rfl
  · rfl
  · exact isNaN_roundWithAccuracy _ _ _ _

theorem isNaN_div (hx : value? x = some a) (hy : value? y = some b) (hb : b ≠ 0) :
    (x / y).isNaN = false := by
  refine isNaN_ofModel_pack (u := div .binary64 (unpacked x) (unpacked y)) ?_
  rcases unpacked_cases hy with ⟨t, -, hzero⟩ | ⟨t, n, f, hn, hv, -⟩
  · exact absurd hzero hb
  · rcases unpacked_cases hx with ⟨s, hu, -⟩ | ⟨s, m, e, hm, hu, -⟩ <;> rw [hu, hv]
    · rfl
    · exact isNaN_roundWithAccuracy _ _ _ _

theorem isNaN_sqrt (hx : value? x = some a) (ha : 0 ≤ a) : x.sqrt.isNaN = false := by
  refine isNaN_ofModel_pack (u := sqrt .binary64 (unpacked x)) ?_
  rcases unpacked_cases hx with ⟨s, hu, -⟩ | ⟨s, m, e, hm, hu, -, rfl⟩ <;> rw [hu]
  · rfl
  · cases s with
    | positive => exact isNaN_roundWithAccuracy _ _ _ _
    | negative =>
      have hpos := Decimal.scaled_pos hm e
      exact absurd ha (not_le.mpr (neg_neg_of_pos hpos))

/-! ## Whole numbers -/

/-- A multiple of the spacing around it is rounded to itself. -/
theorem rounded?_of_multiple {k : Int} (hv : 0 < v) (hbound : v < overflowBound)
    (h : v = k * 2 ^ spacing v) : rounded? v = some v := by
  have hunit : (0 : Rat) < 2 ^ spacing v := by positivity
  have hquot : v / 2 ^ spacing v = k := (div_eq_iff hunit.ne').mpr h
  rw [rounded?_of_nonneg hv.le, value?_nearest hv ((nearestWord_lt_infinityWord_iff hv).mpr hbound),
    hquot, halfEven_intCast, ← h]

/-- A significand of 53 digits, or the next power of two, is not changed at any place of the
range. -/
theorem rounded?_scaled {n : Nat} {e : Int} (hn : n ≤ 2 ^ 53) (hlow : -1074 ≤ e) (hhigh : e ≤ 970) :
    rounded? (scaled n e) = some (scaled n e) := by
  rcases n.eq_zero_or_pos with rfl | hpos
  · simp [scaled]
  · by_cases hlast : n = 2 ^ 53
    · have hnext : scaled n e = scaled (2 ^ 52) (e + 1) := by
        rw [hlast, scaled, scaled, zpow_add_one₀ (by norm_num)]
        push_cast
        ring
      have hcanonical : Canonical (2 ^ 52) (e + 1) :=
        ⟨by norm_num, by omega, by omega, .inr (Nat.le_refl _)⟩
      rw [hnext, hcanonical.rounded? (by norm_num)]
    · have hv := Decimal.scaled_pos hpos e
      have hunit : (0 : Rat) < 2 ^ e := by positivity
      have hbelow : scaled n e < 2 ^ (53 + e) := by
        rw [zpow_add₀ (by norm_num), scaled]
        exact mul_lt_mul_of_pos_right (by exact_mod_cast (by omega : n < 2 ^ 53)) hunit
      have hmagnitude : magnitude 2 (scaled n e) < 53 + e := by
        rw [← not_le, le_magnitude_iff (b := 2) (Nat.le_refl _) hv, not_le]
        exact hbelow
      have hbound : scaled n e < overflowBound :=
        (hbelow.trans_le (zpow_le_zpow_right₀ (by norm_num) (by omega))).trans
          overflowBound_bounds.1
      have hplace : spacing (scaled n e) ≤ e := by
        unfold spacing
        omega
      exact rounded?_of_multiple hv hbound (scaled_eq_mul hplace)

theorem rounded?_natCast {n : Nat} (h : n ≤ 2 ^ 53) : rounded? n = some (n : Rat) := by
  have hscaled : scaled n 0 = n := by simp [scaled]
  rw [← hscaled]
  exact rounded?_scaled h (by norm_num) (by norm_num)

/-- Whole numbers up to `2 ^ 53` are doubles. -/
theorem rounded?_intCast {n : Int} (h : |n| ≤ 2 ^ 53) : rounded? n = some (n : Rat) := by
  obtain ⟨hlow, hhigh⟩ := abs_le.mp h
  obtain ⟨m, rfl | rfl⟩ := n.eq_nat_or_neg
  · rw [Int.cast_natCast]
    exact rounded?_natCast (by omega)
  · rw [Int.cast_neg, Int.cast_natCast, rounded?_neg, rounded?_natCast (by omega)]
    rfl

/-- What is a value after rounding is the value of a double. -/
theorem exists_value_of_rounded? {w : Rat} (h : rounded? v = some w) : ∃ x, value? x = some w := by
  unfold rounded? at h
  split at h
  · exact ⟨_, h⟩
  · exact ⟨-nearest (-v), by rw [value?_neg, h]⟩

end PocketCalc.Binary64
