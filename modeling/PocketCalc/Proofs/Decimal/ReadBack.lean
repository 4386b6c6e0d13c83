import Mathlib.Data.Nat.Prime.Basic
import PocketCalc.Proofs.Binary64.Unsigned

/-!
# Plain notation is read back

The digits that `shortest` chooses read as the double that they are chosen for: a decimal of the
search is taken only if it does, and the expansion behind the search has the exact value. So a
finite double without a sign is written as a numeral, and this numeral is read as the same double
(`exists_plain`).
-/

namespace PocketCalc.Decimal

open Binary64 Rational
open Token (IsNumeral)

variable {x : Rat} {w p : Nat} {d : Decimal}

/-! ## The exact expansion -/

/-- The value of a double has a power of two as denominator. -/
theorem exists_den_scaled (m : Nat) (e : Int) : ∃ n, (scaled m e).den = 2 ^ n := by
  obtain ⟨n, hn⟩ | ⟨n, hn⟩ : (∃ n : Nat, e = n) ∨ ∃ n : Nat, e = -n :=
    (Int.eq_nat_or_neg e).elim fun n hn => hn.imp (fun h => ⟨n, h⟩) fun h => ⟨n, h⟩
  · have hwhole : scaled m e = ((m * 2 ^ n : Nat) : Rat) := by
      rw [scaled, hn, zpow_natCast]
      push_cast
      rfl
    exact ⟨0, by rw [hwhole, Rat.den_natCast, pow_zero]⟩
  · have hquot : scaled m e = Rat.divInt m (2 ^ n : Nat) := by
      rw [scaled, hn, zpow_neg, zpow_natCast, Rat.divInt_eq_div, div_eq_mul_inv]
      push_cast
      rfl
    have hdvd : (scaled m e).den ∣ 2 ^ n := by
      rw [hquot]
      exact_mod_cast Rat.den_dvd m (2 ^ n : Nat)
    obtain ⟨k, -, hk⟩ := (Nat.dvd_prime_pow Nat.prime_two).mp hdvd
    exact ⟨k, hk⟩

/-- The expansion of a rational whose denominator is a power of two is exact. -/
theorem value_exact (hx : 0 < x) (hden : ∃ n, x.den = 2 ^ n) : (exact x).value = x := by
  obtain ⟨n, hn⟩ := hden
  have hlog : x.den.log2 = n := by rw [hn, Nat.log2_two_pow]
  -- as many places as the denominator has factors two
  have hwhole : x * 10 ^ n = ((x.num * 5 ^ n : Int) : Rat) := by
    have hten : (10 : Rat) ^ n = x.den * 5 ^ n := by
      rw [hn]
      push_cast
      rw [← mul_pow]
      norm_num
    rw [hten, ← mul_assoc, Rat.mul_den_eq_num]
    push_cast
    rfl
  have hnonneg : 0 ≤ x.num * 5 ^ n :=
    Int.mul_nonneg (Rat.num_nonneg.mpr hx.le) (by positivity)
  obtain ⟨k, hk⟩ := Int.eq_ofNat_of_zero_le hnonneg
  have hpos : (0 : Rat) < 10 ^ n := by positivity
  unfold exact value
  simp only [hlog]
  rw [hwhole, Rat.floor_intCast, hk, Int.toNat_natCast, zpow_neg, zpow_natCast, ← div_eq_mul_inv,
    div_eq_iff hpos.ne', hwhole, hk]
  rfl

/-! ## The shortest digits -/

theorem readsAs_iff : readsAs w d = true ↔ nearestWord d.value = w := by
  rw [readsAs, beq_iff_eq]

/-- The search takes only what reads back. -/
theorem readsAs_of_onGrid? (h : onGrid? w x p = some d) : readsAs w d = true := by
  unfold onGrid? at h
  dsimp only at h
  split at h
  · next hlo hhi =>
    split at h <;> cases h
    · exact hlo
    · exact hhi
  · next hlo _ =>
    cases h
    exact hlo
  · next _ hhi =>
    cases h
    exact hhi
  · cases h

/-- The shortest digits of a double read as this double. -/
theorem nearestWord_shortest (hx : 0 < x) (hden : ∃ n, x.den = 2 ^ n) :
    nearestWord (shortest x).value = nearestWord x := by
  unfold shortest
  dsimp only
  cases hfound : (List.range' 1 17).findSome? (onGrid? (nearestWord x) x) with
  | some d =>
    obtain ⟨p, -, hp⟩ := List.exists_of_findSome?_eq_some hfound
    exact readsAs_iff.mp (readsAs_of_onGrid? hp)
  | none => rw [Option.getD_none, value_exact hx hden]

/-- **Plain notation is read back.** A finite double without a sign is written as a numeral, which is
read as the same double. -/
theorem exists_plain {x : Float} (hx : Unsigned x) :
    ∃ run, plain x = String.ofList run ∧ IsNumeral run ∧ readNumeral run = x := by
  rcases nearest_of_unsigned hx with rfl | ⟨m, e, hm, hunpacked, hnearest⟩
  · exact ⟨['0'], by decide +kernel, ⟨by decide, List.all_eq_true.mp rfl⟩, by decide +kernel⟩
  · have hplain : plain x = String.ofList (shortest (scaled m e)).reduced.fixed := by
      unfold plain
      rw [hunpacked]
      rfl
    refine ⟨_, hplain, isNumeral_fixed _, ?_⟩
    have hword := nearestWord_shortest (scaled_pos hm e) (exists_den_scaled m e)
    rw [readNumeral_eq, value_ofNumeral_fixed, value_reduced, nearest, hword]
    exact hnearest

/-! No power of ten is written, and of two shortest decimals that are equally near, the upper one
is. -/

example : plain 1e21 = "1000000000000000000000" := by decide +kernel

example : plain (1 / 33554432) = "0.000000029802322387695313" := by decide +kernel

end PocketCalc.Decimal
