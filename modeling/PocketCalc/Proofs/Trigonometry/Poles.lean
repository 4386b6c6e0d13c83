import Mathlib.Data.Int.ModEq
import PocketCalc.Arithmetic
import PocketCalc.Proofs.Binary64.Remainder

/-!
# Poles of the tangent at whole degrees

An angle is measured from a pole by a subtraction and a remainder. For whole degrees both are exact
as long as the difference is at most `2 ^ 53`; the distance is then a whole number below 180, so the
tolerance is never what decides: it is zero at a pole, and at least one degree away from both ends
otherwise (`isTangentPole_iff_dvd`). From `2 ^ 54` on the doubles are multiples of four and none of
them is a pole, so no pole is missed at all (`isTangentPole_of_pole`).
-/

namespace PocketCalc

open Binary64

variable {x : Float} {n : Int}

theorem value?_poleTolerance : ∃ t, value? poleTolerance = some t ∧ 0 < t ∧ t < 1 := by
  refine ⟨4722366482869645 / 2 ^ 72, ?_, ?_, ?_⟩ <;> decide +kernel

/-- Once the subtraction is exact, the rest is: a whole distance below 180 is within the tolerance of
an end only if it is zero. -/
theorem isTangentPole_iff_dvd {d : Int} (hdiff : value? (x - 90) = some (d : Rat)) :
    isTangentPole x = true ↔ 180 ∣ d := by
  have hdistance := value?_euclideanRemainder hdiff (n := 180) (by norm_num) (by norm_num)
  obtain ⟨r, hr⟩ : ∃ r, r = d % (180 : Nat) := ⟨_, rfl⟩
  rw [← hr] at hdistance
  have hnonneg : 0 ≤ r := by omega
  have hlt : r < 180 := by omega
  obtain ⟨t, ht, htpos, htone⟩ := value?_poleTolerance
  have hhalfTurn : value? 180 = some ((180 : Int) : Rat) := by decide +kernel
  have hrest : value? (180 - euclideanRemainder (x - 90) 180) = some ((180 - r : Int) : Rat) := by
    rw [value?_sub hhalfTurn hdistance, ← Int.cast_sub]
    exact rounded?_intCast (abs_le.mpr (by omega))
  have hbelow : euclideanRemainder (x - 90) 180 < poleTolerance ↔ r = 0 := by
    rw [lt_iff hdistance ht]
    constructor
    · intro h
      have : r < 1 := by exact_mod_cast h.trans htone
      omega
    · rintro rfl
      exact_mod_cast htpos
  have habove : ¬ 180 - euclideanRemainder (x - 90) 180 < poleTolerance := by
    rw [lt_iff hrest ht, not_lt]
    have : (1 : Rat) ≤ (180 - r : Int) := by exact_mod_cast (by omega : 1 ≤ 180 - r)
    linarith
  unfold isTangentPole
  simp only [hbelow, habove, decide_false, Bool.or_false, decide_eq_true_eq]
  omega

theorem value?_ninety : value? 90 = some ((90 : Int) : Rat) := by decide +kernel

/-- Up to `2 ^ 53 - 90` the difference from a right angle is a whole number of at most 53 digits. -/
theorem isTangentPole_iff (hx : value? x = some (n : Rat)) (hn : |n| ≤ 2 ^ 53 - 90) :
    isTangentPole x = true ↔ n ≡ 90 [ZMOD 180] := by
  obtain ⟨hlow, hhigh⟩ := abs_le.mp hn
  have hdiff : value? (x - 90) = some ((n - 90 : Int) : Rat) := by
    rw [value?_sub hx value?_ninety, ← Int.cast_sub]
    exact rounded?_intCast (abs_le.mpr (by omega))
  rw [isTangentPole_iff_dvd hdiff, Int.modEq_comm, Int.modEq_iff_dvd]

/-! ## Every pole is a whole number of degrees in range -/

/-- From `2 ^ 54` on every double is a multiple of four. -/
theorem abs_lt_of_not_dvd (hx : value? x = some (n : Rat)) (h : ¬ 4 ∣ n) : |n| < 2 ^ 54 := by
  rcases unpacked_cases hx with ⟨s, -, hzero⟩ | ⟨s, m, e, hm, -, hcanonical, hvalue⟩
  · have : n = 0 := by exact_mod_cast hzero
    exact absurd ⟨0, this⟩ h
  · have habs : ((|n| : Int) : Rat) = scaled m e := by
      rw [Int.cast_abs, hvalue, Decimal.abs_withSign s (Decimal.scaled_pos hm e)]
    by_cases he : 2 ≤ e
    · obtain ⟨j, hj⟩ := Int.eq_ofNat_of_zero_le (by omega : 0 ≤ e - 2)
      have hfour : |n| = 4 * (m * 2 ^ j) := by
        have hscaled : scaled m e = 4 * (m * 2 ^ j) := by
          rw [show e = j + 2 by omega, scaled, zpow_add₀ (by norm_num), zpow_natCast]
          norm_num
          ring
        rw [hscaled] at habs
        exact_mod_cast habs
      exact absurd ((dvd_abs 4 n).mp ⟨_, hfour⟩) h
    · have hbound : scaled m e < 2 ^ 54 := by
        have hunit : (2 : Rat) ^ e ≤ 2 ^ (1 : Int) := zpow_le_zpow_right₀ (by norm_num) (by omega)
        have hmlt : (m : Rat) < 2 ^ 53 := by exact_mod_cast hcanonical.lt
        calc scaled m e < 2 ^ 53 * 2 ^ e := mul_lt_mul_of_pos_right hmlt (by positivity)
          _ ≤ 2 ^ 53 * 2 ^ (1 : Int) := mul_le_mul_of_nonneg_left hunit (by norm_num)
          _ = 2 ^ 54 := by norm_num
      rw [← habs] at hbound
      exact_mod_cast hbound

/-- A whole number of half turns is a double up to beyond `2 ^ 54`, for it is a multiple of four. -/
theorem rounded?_halfTurns {k : Int} (hk : |k| ≤ 2 ^ 47) :
    rounded? ((180 * k : Int) : Rat) = some ((180 * k : Int) : Rat) := by
  obtain ⟨hlow, hhigh⟩ := abs_le.mp hk
  have hscaled : ∀ j : Nat, ((180 * j : Int) : Rat) = scaled (45 * j) 2 := by
    intro j
    rw [scaled]
    push_cast
    ring
  obtain ⟨j, rfl | rfl⟩ := k.eq_nat_or_neg
  · rw [hscaled]
    exact rounded?_scaled (by omega) (by norm_num) (by norm_num)
  · rw [Int.mul_neg, Int.cast_neg, rounded?_neg, hscaled,
      rounded?_scaled (by omega) (by norm_num) (by norm_num)]
    rfl

/-- No pole is missed: where the tangent is undefined, it is refused. -/
theorem isTangentPole_of_pole {k : Int} (hx : value? x = some ((90 + 180 * k : Int) : Rat)) :
    isTangentPole x = true := by
  have hbound := abs_lt_of_not_dvd hx (by omega)
  obtain ⟨hlow, hhigh⟩ := abs_lt.mp hbound
  have hdiff : value? (x - 90) = some ((180 * k : Int) : Rat) := by
    rw [value?_sub hx value?_ninety, ← Int.cast_sub, add_sub_cancel_left]
    exact rounded?_halfTurns (abs_le.mpr (by omega))
  exact (isTangentPole_iff_dvd hdiff).mpr (Int.dvd_mul_right 180 k)

/-! ## Whole degrees -/

/-- **The tangent at whole degrees.** Every whole number of degrees up to `2 ^ 53 - 90` is a double,
and its tangent is refused exactly a right angle away from a multiple of the half turn, however many
turns away. -/
theorem tangent_of_whole_degrees [Elementary] (n : Int) (hn : |n| ≤ 2 ^ 53 - 90) :
    (∃ x, value? x = some (n : Rat)) ∧
      ∀ x, value? x = some (n : Rat) →
        (isTangentPole x = true ↔ n ≡ 90 [ZMOD 180]) ∧
        (Trig.tan.apply x = .error (.undefinedTangent x) ↔ n ≡ 90 [ZMOD 180]) ∧
        ((∃ v, Trig.tan.apply x = .ok v) ↔ ¬ n ≡ 90 [ZMOD 180]) := by
  obtain ⟨hlow, hhigh⟩ := abs_le.mp hn
  refine ⟨exists_value_of_rounded? (rounded?_intCast (abs_le.mpr (by omega))), fun x hx => ?_⟩
  have hpole := isTangentPole_iff hx hn
  unfold Trig.apply
  refine ⟨hpole, ?_, ?_⟩ <;> rw [← hpole] <;> cases isTangentPole x <;> simp

/-- At the last pole of the range, many turns below zero, and at the end of the range, which is
none. -/
theorem tangent_of_whole_degrees_far :
    (|(-9007199254740870 : Int)| ≤ 2 ^ 53 - 90 ∧
      value? (-9007199254740870) = some ((-9007199254740870 : Int) : Rat) ∧
      Trig.tan.apply (-9007199254740870) = .error (.undefinedTangent (-9007199254740870))) ∧
    (|(9007199254740902 : Int)| ≤ 2 ^ 53 - 90 ∧
      value? 9007199254740902 = some ((9007199254740902 : Int) : Rat) ∧
      ∃ v, Trig.tan.apply 9007199254740902 = .ok v) := by
  have hpole : |(-9007199254740870 : Int)| ≤ 2 ^ 53 - 90 := by decide
  have hend : |(9007199254740902 : Int)| ≤ 2 ^ 53 - 90 := by decide
  have hpoleValue : value? (-9007199254740870) = some ((-9007199254740870 : Int) : Rat) := by
    decide +kernel
  have hendValue : value? 9007199254740902 = some ((9007199254740902 : Int) : Rat) := by
    decide +kernel
  have hat := (tangent_of_whole_degrees _ hpole).2 _ hpoleValue
  have hoff := (tangent_of_whole_degrees _ hend).2 _ hendValue
  exact ⟨⟨hpole, hpoleValue, hat.2.1.mpr (by decide)⟩, hend, hendValue,
    hoff.2.2.mpr (by decide)⟩

end PocketCalc
