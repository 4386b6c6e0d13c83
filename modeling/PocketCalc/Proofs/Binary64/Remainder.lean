import PocketCalc.Binary64
import PocketCalc.Proofs.Binary64.Range

/-!
# Remainders of whole numbers

What is left of a whole number after the whole periods in it is a smaller whole number, so the
truncated remainder of a double is exact wherever its value is whole, however large it is. With a
period below `2 ^ 53`, so is the one addition that moves a negative remainder up: the Euclidean
remainder of doubles is the one of integers (`value?_euclideanRemainder`).
-/

namespace PocketCalc.Binary64

open Rational
open Decimal (withSign)
open Float.Model (UnpackedFloat)
open Float.Model.UnpackedFloat

/-- A whole number that is written out is multiplied by the power of ten behind it, which is one. -/
theorem value?_toFloat {n : Nat} (hn : n < 2 ^ 53) : value? n.toFloat = some (n : Rat) := by
  have hfast : n.toFloat = n.toUInt64.toFloat * Float.exactlyRepresentablePowersOfTen[0] :=
    dif_pos ⟨hn, by decide⟩
  have hone : value? Float.exactlyRepresentablePowersOfTen[0] = some 1 := by decide +kernel
  have hword : value? n.toUInt64.toFloat = some (n : Rat) := by
    have hmodel : n.toUInt64.toFloat =
      .ofModel (.pack (UnpackedFloat.normalize .binary64 n.toUInt64.toNat 0 .positive)) := rfl
    have hnat : n.toUInt64.toNat = n := by
      simp
      omega
    rw [hmodel, hnat, value?_normalize, zpow_zero, mul_one, Int.cast_natCast, rounded?_natCast hn.le]
  rw [hfast, value?_mul hword hone, mul_one, rounded?_natCast hn.le]

theorem leftover_natCast (n k : Nat) : leftover n (k : Rat) = (k % n : Nat) := by
  have hfloor : ((k : Rat) / n).floor = (k / n : Nat) := Rat.floor_natCast_div_natCast k n
  have hsum : (k : Rat) = n * (k / n : Nat) + (k % n : Nat) := by
    exact_mod_cast (Nat.div_add_mod k n).symm
  unfold leftover
  rw [hfloor, Int.cast_natCast]
  linarith

section

variable {x : Float} {k : Int} {n : Nat}

/-- The remainder with the sign of the dividend. -/
theorem value?_truncatedRemainder (hx : value? x = some (k : Rat)) (hpos : 0 < n)
    (hn : n < 2 ^ 53) : value? (truncatedRemainder x n) = some ((k.tmod n : Int) : Rat) := by
  have hrest : ∀ j : Nat, value? (nearest (leftover n j)) = some ((j % n : Nat) : Rat) := by
    intro j
    have hlt := Nat.mod_lt j hpos
    rw [leftover_natCast, ← rounded?_of_nonneg (by positivity), rounded?_natCast (by omega)]
  rcases unpacked_cases hx with ⟨s, hu, hzero⟩ | ⟨s, m, e, hm, hu, -, hvalue⟩
  · have hk : k = 0 := by exact_mod_cast hzero
    rw [truncatedRemainder, hu, hx, hk, Int.zero_tmod]
  · rw [truncatedRemainder, hu]
    cases s with
    | positive =>
      have hscaled : scaled m e = k := hvalue.symm
      have hk : 0 < k := by
        exact_mod_cast hscaled ▸ Decimal.scaled_pos hm e
      obtain ⟨j, rfl⟩ := Int.eq_ofNat_of_zero_le hk.le
      dsimp only
      rw [hscaled]
      exact hrest j
    | negative =>
      have hscaled : scaled m e = (-k : Int) := by
        rw [Int.cast_neg, hvalue]
        exact (neg_neg _).symm
      have hk : 0 < -k := by
        exact_mod_cast hscaled ▸ Decimal.scaled_pos hm e
      obtain ⟨j, hj⟩ := Int.eq_ofNat_of_zero_le hk.le
      have hkj : k = -j := by omega
      dsimp only
      rw [value?_neg, hscaled, hj, Int.cast_natCast, hrest j, hkj, Int.neg_tmod, Int.cast_neg]
      rfl

/-- The remainder in `[0, n)`. -/
theorem value?_euclideanRemainder (hx : value? x = some (k : Rat)) (hpos : 0 < n)
    (hn : n < 2 ^ 53) : value? (euclideanRemainder x n) = some ((k % n : Int) : Rat) := by
  have hrest := value?_truncatedRemainder hx hpos hn
  have hperiod := value?_toFloat hn
  have hsplit := Int.tmod_eq_emod (a := k) (b := n)
  have hlow := Int.emod_nonneg k (by omega : (n : Int) ≠ 0)
  have hhigh := Int.emod_lt_of_pos k (by omega : 0 < (n : Int))
  unfold euclideanRemainder
  dsimp only
  by_cases hup : k.tmod n < 0
  · -- the remainder is one period short
    have hsum : k.tmod n + n = k % n := by
      split at hsplit <;> omega
    rw [if_pos ((lt_iff hrest value?_zero).mpr (by exact_mod_cast hup)), value?_add hrest hperiod,
      ← hsum]
    exact_mod_cast rounded?_intCast (n := k.tmod n + n) (by rw [abs_le]; omega)
  · have hsame : k.tmod n = k % n := by
      split at hsplit <;> omega
    rw [if_neg (fun h => hup (by exact_mod_cast (lt_iff hrest value?_zero).mp h)), hrest, hsame]

end

end PocketCalc.Binary64
