import PocketCalc.Proofs.Binary64.Operations

/-!
# Comparing doubles

Finite doubles are compared by sign, exponent and significand. As the operands are canonical, this
is the order of their values (`compare_unpacked`), so `<`, `≤` and `==` of doubles are those of
rationals.
-/

namespace PocketCalc.Binary64

open Decimal (withSign)
open Float.Model (UnpackedFloat)
open Float.Model.UnpackedFloat

/-! ## Significands -/

variable {m n : Nat} {e f : Int}

/-- A greater exponent is a multiple of a smaller one. -/
theorem scaled_eq_mul (h : f ≤ e) :
    scaled m e = ((m <<< (e - f).toNat : Nat) : Int) * 2 ^ f := by
  rw [← scaled_shiftLeft m h, scaled, Int.cast_natCast]

/-- Below a greater exponent the values end where the binade of this exponent begins. -/
theorem Canonical.scaled_lt (hm : Canonical m e) (h : e < f) : scaled m e < 2 ^ 52 * 2 ^ f := by
  have hunit : (0 : Rat) < 2 ^ e := by positivity
  calc scaled m e < 2 ^ 53 * 2 ^ e := mul_lt_mul_of_pos_right (by exact_mod_cast hm.lt) hunit
    _ = 2 ^ 52 * 2 ^ (e + 1) := by rw [zpow_add_one₀ (by norm_num)]; ring
    _ ≤ 2 ^ 52 * 2 ^ f :=
      mul_le_mul_of_nonneg_left (zpow_le_zpow_right₀ (by norm_num) h) (by norm_num)

/-- A greater exponent makes up for any significand. -/
theorem Canonical.scaled_lt_of_exponent_lt (hm : Canonical m e) (hn : Canonical n f) (h : e < f) :
    scaled m e < scaled n f := by
  have helow := hm.least_le
  have hlong : 2 ^ 52 ≤ n := hn.lead.resolve_left (by omega)
  calc scaled m e < 2 ^ 52 * 2 ^ f := hm.scaled_lt h
    _ ≤ scaled n f := mul_le_mul_of_nonneg_right (by exact_mod_cast hlong) (by positivity)

theorem compare_scaled_same (m n : Nat) (e : Int) :
    compare (scaled m e) (scaled n e) = compare m n := by
  have hmono : StrictMono fun k : Nat => scaled k e := by
    intro j k h
    exact mul_lt_mul_of_pos_right (by exact_mod_cast h) (by positivity)
  rw [← cmp_eq_compare, ← cmp_eq_compare]
  exact hmono.cmp_map_eq m n

/-- Exponents are compared before significands. -/
theorem Canonical.compare_scaled (hm : Canonical m e) (hn : Canonical n f) :
    compare (scaled m e) (scaled n f) = (compare e f).then (compare m n) := by
  rcases lt_trichotomy e f with h | rfl | h
  · rw [compare_lt_iff_lt.mpr h, compare_lt_iff_lt.mpr (hm.scaled_lt_of_exponent_lt hn h)]
    rfl
  · rw [compare_eq_iff_eq.mpr rfl, compare_scaled_same]
    rfl
  · rw [compare_gt_iff_gt.mpr h, compare_gt_iff_gt.mpr (hn.scaled_lt_of_exponent_lt hm h)]
    rfl

theorem compare_neg (a b : Rat) : compare (-a) (-b) = (compare a b).swap := by
  have hanti : StrictAnti fun c : Rat => -c := fun _ _ => neg_lt_neg
  rw [← cmp_eq_compare, ← cmp_eq_compare, cmp_swap]
  exact hanti.cmp_map_eq a b

/-! ## Doubles -/

variable {x y : Float} {a b : Rat}

/-- Doubles are compared as their values are. -/
theorem compare_unpacked (hx : value? x = some a) (hy : value? y = some b) :
    (unpacked x).compare (unpacked y) = some (compare a b) := by
  rcases unpacked_cases hx with ⟨s, hu, rfl⟩ | ⟨s, m, e, hm, hu, hcm, rfl⟩ <;>
    rcases unpacked_cases hy with ⟨t, hv, rfl⟩ | ⟨t, n, f, hn, hv, hcn, rfl⟩ <;> rw [hu, hv]
  · rfl
  · have hpos := Decimal.scaled_pos hn f
    cases t with
    | positive => exact congrArg some (compare_lt_iff_lt.mpr hpos).symm
    | negative => exact congrArg some (compare_gt_iff_gt.mpr (neg_neg_of_pos hpos)).symm
  · have hpos := Decimal.scaled_pos hm e
    cases s with
    | positive => exact congrArg some (compare_gt_iff_gt.mpr hpos).symm
    | negative => exact congrArg some (compare_lt_iff_lt.mpr (neg_neg_of_pos hpos)).symm
  · have hposm := Decimal.scaled_pos hm e
    have hposn := Decimal.scaled_pos hn f
    have hmixed : -scaled m e < scaled n f := by linarith
    have hmixed' : -scaled n f < scaled m e := by linarith
    cases s <;> cases t
    · rw [withSign, withSign, compare_neg, hcm.compare_scaled hcn]
      rfl
    · exact congrArg some (compare_lt_iff_lt.mpr hmixed).symm
    · exact congrArg some (compare_gt_iff_gt.mpr hmixed').symm
    · rw [withSign, withSign, hcm.compare_scaled hcn]
      rfl

theorem lt_iff (hx : value? x = some a) (hy : value? y = some b) : x < y ↔ a < b := by
  have hlt : x < y ↔ ((unpacked x).compare (unpacked y) == some .lt) = true :=
    decide_eq_true_iff
  rw [hlt, compare_unpacked hx hy, beq_iff_eq, Option.some_inj, compare_lt_iff_lt]

theorem le_iff (hx : value? x = some a) (hy : value? y = some b) : x ≤ y ↔ a ≤ b := by
  have hle : x ≤ y ↔ ((unpacked x).compare (unpacked y)).any (·.isLE) = true :=
    decide_eq_true_iff
  rw [hle, compare_unpacked hx hy, Option.any_some, ← compare_le_iff_le]
  cases compare a b <;> decide

theorem beq_iff (hx : value? x = some a) (hy : value? y = some b) : (x == y) = true ↔ a = b := by
  have hbeq : (x == y) = ((unpacked x).compare (unpacked y) == some .eq) := rfl
  rw [hbeq, compare_unpacked hx hy, beq_iff_eq, Option.some_inj, compare_eq_iff_eq]

end PocketCalc.Binary64
