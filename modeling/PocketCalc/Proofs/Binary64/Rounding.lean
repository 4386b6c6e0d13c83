import PocketCalc.Proofs.Binary64.Unsigned

/-!
# Rounding of results

The result of an operation is worked out on a significand of any length, with a round bit and a
sticky bit for what lies below its last place. Shifted to the places of a double and rounded by
these two bits it is the double nearest to the exact result: one rounding, ties to even
(`ofModel_pack_roundWithAccuracy`). The bits say whether the part that was shifted out is nothing,
less than half a unit, half a unit or more, and a shift keeps this (`Represents.shiftRight`).
-/

namespace PocketCalc.Binary64

open Rational
open Float.Model (Format UnpackedFloat totalExponent)
open Float.Model.UnpackedFloat

/-! ## Bits that are shifted out -/

/-- The significand and its two bits stand for `x`: the round bit is half a unit, and the sticky bit
is set if there is more behind it. -/
def Represents : ExtendedMantissa → Rat → Prop
  | ⟨m, false, false⟩, x => x = m
  | ⟨m, false, true⟩, x => (m : Rat) < x ∧ x < m + 1 / 2
  | ⟨m, true, false⟩, x => x = m + 1 / 2
  | ⟨m, true, true⟩, x => (m : Rat) + 1 / 2 < x ∧ x < m + 1

variable {em : ExtendedMantissa} {x : Rat}

/-- The significand is the whole part. -/
theorem Represents.bounds (h : Represents em x) : (em.mantissa : Rat) ≤ x ∧ x < em.mantissa + 1 := by
  obtain ⟨m, round, sticky⟩ := em
  cases round <;> cases sticky <;> simp only [Represents] at h <;> constructor <;> linarith

theorem Represents.floor_eq (h : Represents em x) : x.floor = em.mantissa := by
  obtain ⟨hle, hlt⟩ := h.bounds
  rw [show x.floor = ⌊x⌋ from rfl, Int.floor_eq_iff]
  exact_mod_cast And.intro hle hlt

/-- One place to the right: the last digit becomes the round bit, the round bit is added to the
sticky bit. -/
theorem Represents.shiftRightOne (h : Represents em x) : Represents em.shiftRightOne (x / 2) := by
  obtain ⟨m, round, sticky⟩ := em
  obtain ⟨j, rfl | rfl⟩ := m.even_or_odd'
  · have hdiv : 2 * j / 2 = j := by omega
    have hmod : (2 * j % 2 != 0) = false := by simp
    cases round <;> cases sticky <;>
      simp only [Represents, ExtendedMantissa.shiftRightOne, hdiv, hmod, Bool.or_true, Bool.or_false,
        Nat.cast_mul, Nat.cast_ofNat] at h ⊢
    all_goals first | linarith | constructor <;> linarith
  · have hdiv : (2 * j + 1) / 2 = j := by omega
    have hmod : ((2 * j + 1) % 2 != 0) = true := by simp
    cases round <;> cases sticky <;>
      simp only [Represents, ExtendedMantissa.shiftRightOne, hdiv, hmod, Bool.or_true, Bool.or_false,
        Nat.cast_add, Nat.cast_mul, Nat.cast_ofNat, Nat.cast_one] at h ⊢
    all_goals first | linarith | constructor <;> linarith

/-- Any number of places to the right. -/
theorem Represents.shiftRight (h : Represents em x) (n : Nat) :
    Represents (em >>> n) (x / 2 ^ n) := by
  have hshift : em >>> n = Nat.repeat ExtendedMantissa.shiftRightOne n em := rfl
  rw [hshift]
  induction n with
  | zero => simpa [Nat.repeat] using h
  | succ n ih =>
    rw [Nat.repeat, pow_succ, ← div_div]
    exact (ih rfl).shiftRightOne

/-- The two bits round as the exact number is rounded. -/
theorem Represents.halfEven_eq (h : Represents em x) : halfEven x = em.roundedMantissa := by
  have hfloor := h.floor_eq
  obtain ⟨m, round, sticky⟩ := em
  unfold halfEven
  rw [hfloor]
  cases round <;> cases sticky <;>
    simp only [Represents, ExtendedMantissa.roundedMantissa, ExtendedMantissa.accuracy,
      Accuracy.roundToNearestEven, Int.cast_natCast] at h ⊢
  · rw [if_pos (by linarith)]
  · rw [if_pos (by linarith)]
  · rw [if_neg (by linarith), if_neg (by linarith)]
    push_cast
    rfl
  · rw [if_neg (by linarith), if_pos (by linarith)]
    push_cast
    rfl

/-- A whole number has no bits behind it. -/
theorem represents_natCast (m : Nat) :
    Represents (ExtendedMantissa.ofMantissaAndAccuracy m .exact) m := rfl

/-- Whole part and remainder of a division give the bits of the quotient. -/
theorem represents_div (n : Nat) {d : Nat} (hd : 0 < d) :
    Represents (ExtendedMantissa.ofMantissaAndAccuracy (n / d) (accuracyOfFraction (n % d) d))
      (n / d) := by
  have hd' : (0 : Rat) < d := by exact_mod_cast hd
  have hlt : n % d < d := Nat.mod_lt n hd
  have hquot : (n : Rat) / d = (n / d : Nat) + (n % d : Nat) / d := by
    have hsum : (n : Rat) = d * (n / d : Nat) + (n % d : Nat) := by
      exact_mod_cast (Nat.div_add_mod n d).symm
    rw [eq_comm, ← eq_sub_iff_add_eq', div_eq_iff hd'.ne', sub_mul, div_mul_cancel₀ _ hd'.ne']
    linarith
  rw [hquot]
  unfold accuracyOfFraction
  by_cases hzero : n % d = 0
  · simp [hzero, ExtendedMantissa.ofMantissaAndAccuracy, Represents]
  · have hpos : (0 : Rat) < (n % d : Nat) := by exact_mod_cast Nat.pos_of_ne_zero hzero
    rw [if_neg hzero]
    have hunit : ((n % d : Nat) : Rat) / d < 1 := by
      rw [div_lt_one hd']
      exact_mod_cast hlt
    rcases Nat.lt_trichotomy (2 * (n % d)) d with h | h | h
    · have hhalf : ((n % d : Nat) : Rat) / d < 1 / 2 := by
        rw [div_lt_div_iff₀ hd' (by norm_num), one_mul, mul_comm]
        exact_mod_cast h
      rw [Nat.compare_eq_lt.mpr h]
      have := div_pos hpos hd'
      constructor <;> linarith
    · have hhalf : ((n % d : Nat) : Rat) / d = 1 / 2 := by
        rw [div_eq_div_iff hd'.ne' (by norm_num), one_mul, mul_comm]
        exact_mod_cast h
      rw [Nat.compare_eq_eq.mpr h, hhalf]
      rfl
    · have hhalf : (1 : Rat) / 2 < (n % d : Nat) / d := by
        rw [div_lt_div_iff₀ (by norm_num) hd', one_mul, mul_comm]
        exact_mod_cast h
      rw [Nat.compare_eq_gt.mpr h]
      constructor <;> linarith

/-! ## The significand of a result -/

/-- The exponent of the last place that a double has for a number of magnitude `g`. -/
def lastBit (g : Int) : Int := max (-1074) (g - 52)

theorem spacing_eq_lastBit (x : Rat) : spacing x = lastBit (magnitude 2 x) := rfl

theorem targetExponent_eq (m : Nat) (e : Int) :
    Format.binary64.targetExponent (totalExponent m e) = lastBit (m.log2 + e) := by
  have hplaces : Format.binary64.mantissaBits = 53 := rfl
  simp only [Format.targetExponent, totalExponent, hplaces, Format.minExponent, lastBit]
  norm_num
  omega

/-- The double of the significand `k` with last place `e`. A significand of the next power of two
moves the place up. -/
def ofSignificand (s : Sign) (k : Nat) (e : Int) : UnpackedFloat :=
  if h : k = 0 then .zero s
  else if k = 2 ^ 53 then .finite s (2 ^ 52) (e + 1) (by decide)
  else .finite s k e (Nat.pos_of_ne_zero h)

theorem mantissa_ofMantissaAndAccuracy (m : Nat) (a : Accuracy) :
    (ExtendedMantissa.ofMantissaAndAccuracy m a).mantissa = m := by
  rcases a with _ | (_ | _ | _) <;> rfl

theorem shiftToTargetExponent_eq (m : Nat) (e : Int) (a : Accuracy) :
    shiftToTargetExponent .binary64 m e a =
      (ExtendedMantissa.ofMantissaAndAccuracy m a >>> (lastBit (m.log2 + e) - e).toNat,
        e + (lastBit (m.log2 + e) - e).toNat) := by
  unfold shiftToTargetExponent shiftToExponent
  rw [targetExponent_eq]

/-- The first shift goes to the spacing of the number that is represented. -/
theorem spacing_of_represents {m : Nat} {a : Accuracy} {e : Int}
    (h : Represents (ExtendedMantissa.ofMantissaAndAccuracy m a) x) (hx : 0 < x)
    (he : e ≤ lastBit (m.log2 + e)) : spacing (x * 2 ^ e) = lastBit (m.log2 + e) := by
  obtain ⟨hle, hlt⟩ := h.bounds
  rw [mantissa_ofMantissaAndAccuracy] at hle hlt
  have hunit : (0 : Rat) < 2 ^ e := by positivity
  have hv : 0 < x * 2 ^ e := mul_pos hx hunit
  rw [spacing_eq_lastBit]
  by_cases hm : m = 0
  · -- below one unit, and the unit is no greater than the least one
    subst hm
    have hbelow : magnitude 2 (x * 2 ^ e) < e := by
      rw [← not_le, le_magnitude_iff (Nat.le_refl _) hv, not_le]
      have hone : x < 1 := by simpa using hlt
      exact_mod_cast mul_lt_of_lt_one_left hunit hone
    simp only [lastBit, Nat.log2_zero] at he ⊢
    omega
  · have hlog : magnitude 2 (x * 2 ^ e) = m.log2 + e := by
      obtain ⟨hlow, hhigh⟩ := (Nat.log2_eq_iff hm).mp rfl
      apply magnitude_eq_of_bounds (Nat.le_refl _) hv
      · rw [zpow_add₀ (by norm_num), zpow_natCast]
        refine mul_le_mul_of_nonneg_right (le_trans ?_ hle) hunit.le
        exact_mod_cast hlow
      · rw [add_right_comm, zpow_add₀ (by norm_num)]
        refine mul_lt_mul_of_pos_right (lt_of_lt_of_le hlt ?_) hunit
        exact_mod_cast hhigh
    rw [hlog]

/-- The second shift only takes up a carry. -/
theorem shiftToTargetExponent_exact {k : Nat} {e : Int} (hk : k ≤ 2 ^ 53) (he : -1074 ≤ e) :
    shiftToTargetExponent .binary64 k e .exact =
      if k = 2 ^ 53 then (⟨2 ^ 52, false, false⟩, e + 1) else (⟨k, false, false⟩, e) := by
  rw [shiftToTargetExponent_eq]
  split
  · next hcarry =>
    subst hcarry
    have hplaces : (lastBit ((2 ^ 53 : Nat).log2 + e) - e).toNat = 1 := by
      rw [Nat.log2_two_pow]
      unfold lastBit
      omega
    rw [hplaces]
    rfl
  · next hfits =>
    have hlog : k.log2 ≤ 52 := by
      by_cases hzero : k = 0
      · simp [hzero]
      · have := (Nat.log2_lt hzero).mpr (by omega : k < 2 ^ 53)
        omega
    have hplaces : (lastBit (k.log2 + e) - e).toNat = 0 := by
      unfold lastBit
      omega
    rw [hplaces]
    simp [HShiftRight.hShiftRight, Nat.repeat, ExtendedMantissa.ofMantissaAndAccuracy]

theorem ofSignificand_of_ne {k : Nat} (hpos : 0 < k) (hcarry : k ≠ 2 ^ 53) (s : Sign) (e : Int) :
    ofSignificand s k e = .finite s k e hpos := by
  rw [ofSignificand, dif_neg hpos.ne', if_neg hcarry]

theorem ofSignificand_eq {k : Nat} {e : Int} {p : ExtendedMantissa × Int}
    (hp : p = if k = 2 ^ 53 then (⟨2 ^ 52, false, false⟩, e + 1) else (⟨k, false, false⟩, e))
    (hpos : ¬ p.1.mantissa = 0 → 0 < p.1.mantissa) (s : Sign) : ofSignificand s k e =
      if h : p.1.mantissa = 0 then .zero s else .finite s p.1.mantissa p.2 (hpos h) := by
  by_cases hcarry : k = 2 ^ 53
  · rw [if_pos hcarry] at hp
    subst hp hcarry
    rfl
  · rw [if_neg hcarry] at hp
    subst hp
    by_cases hzero : k = 0
    · rw [dif_pos hzero, ofSignificand, dif_pos hzero]
    · rw [dif_neg hzero, ofSignificand_of_ne (Nat.pos_of_ne_zero hzero) hcarry]

/-- The two shifts round the number that is represented to the grid of the doubles around it. -/
theorem roundWithAccuracy_eq {m : Nat} {a : Accuracy} {e : Int}
    (h : Represents (ExtendedMantissa.ofMantissaAndAccuracy m a) x) (hx : 0 < x)
    (he : e ≤ lastBit (m.log2 + e)) {k : Nat}
    (hk : halfEven (x * 2 ^ e / 2 ^ spacing (x * 2 ^ e)) = k) (hkle : k ≤ 2 ^ 53) (s : Sign) :
    roundWithAccuracy .binary64 s m e a = ofSignificand s k (spacing (x * 2 ^ e)) := by
  have hspacing := spacing_of_represents h hx he
  obtain ⟨n, hn⟩ := Int.eq_ofNat_of_zero_le (by omega : 0 ≤ lastBit (m.log2 + e) - e)
  have hlast : e + (n : Int) = spacing (x * 2 ^ e) := by omega
  have hquot : x / 2 ^ n = x * 2 ^ e / 2 ^ spacing (x * 2 ^ e) := by
    rw [← hlast, zpow_add₀ (by norm_num), zpow_natCast, mul_comm x,
      mul_div_mul_left _ _ (by positivity)]
  have hround : (ExtendedMantissa.ofMantissaAndAccuracy m a >>> n).roundedMantissa = k := by
    have := (h.shiftRight n).halfEven_eq
    rw [hquot, hk] at this
    exact_mod_cast this.symm
  have hsecond := shiftToTargetExponent_exact hkle (least_le_spacing (x * 2 ^ e))
  unfold roundWithAccuracy
  rw [shiftToTargetExponent_eq, hn]
  dsimp only
  rw [Int.toNat_natCast, hlast, hround]
  exact (ofSignificand_eq hsecond (fun h => Nat.pos_of_ne_zero h) s).symm

/-! ## The word of a result -/

/-- A significand that is packed adds to the binades below it. -/
theorem toNat_pack_finite {m : Nat} {e : Int} (hm : m < 2 ^ 53) (he : -1074 ≤ e)
    (hlead : e = -1074 ∨ 2 ^ 52 ≤ m) (hpos : 0 < m) :
    (pack .binary64 (.finite .positive m e hpos)).toNat =
      min infinityWord ((e + 1074).toNat * binadeSize + m) := by
  have hsize : binadeSize = 2 ^ 52 := rfl
  obtain ⟨a, ha⟩ := Int.eq_ofNat_of_zero_le (by omega : 0 ≤ e + 1074)
  have hover : 2046 ≤ a → 2047 * 2 ^ 52 ≤ a * 2 ^ 52 + m := by omega
  have hfits : ¬ 2046 ≤ a → a * 2 ^ 52 + m ≤ 2047 * 2 ^ 52 := by omega
  have hnormal : ¬ 2046 ≤ a → 2 ^ 52 ≤ m →
      (a + 1) % 2 ^ 11 * 2 ^ 52 + m % 2 ^ 52 = a * 2 ^ 52 + m := by omega
  have hsubnormal : m < 2 ^ 52 → 0 * 2 ^ 52 + m % 2 ^ 52 = a * 2 ^ 52 + m := by omega
  have hlog : m.log2 = 52 ↔ 2 ^ 52 ≤ m := by
    rw [Nat.log2_eq_iff hpos.ne']
    exact and_iff_left hm
  have hbiased : (e + Format.binary64.exponentBias +
      Format.binary64.mantissaBitsWithoutImplicit).toNat = a + 1 := by
    have hbias : (Format.binary64.exponentBias : Int) +
        Format.binary64.mantissaBitsWithoutImplicit = 1075 := rfl
    omega
  have hbits : 2 ^ Format.binary64.exponentBits = 2046 + 1 + 1 := rfl
  have hplaces : Format.binary64.mantissaBits = 52 + 1 := rfl
  unfold pack
  dsimp only
  rw [hbiased, hbits, hplaces, ha, hsize, infinityWord_eq, Int.toNat_natCast]
  simp only [Nat.add_le_add_iff_right, Nat.add_right_cancel_iff, hlog]
  split
  · next h =>
    rw [Nat.min_eq_left (hover h)]
    exact toNat_packComponents_positive (-1#11) 0
  · next h =>
    rw [Nat.min_eq_right (hfits h)]
    split
    · next hm52 =>
      rw [toNat_packComponents_positive, BitVec.toNat_ofNat, BitVec.toNat_ofNat]
      exact hnormal h hm52
    · next hm52 =>
      rw [toNat_packComponents_positive, BitVec.toNat_ofNat]
      exact hsubnormal (not_le.mp hm52)

/-- The word of a significand with its last place. -/
theorem toNat_pack_ofSignificand {k : Nat} {e : Int} (hk : k ≤ 2 ^ 53) (he : -1074 ≤ e)
    (hlead : e = -1074 ∨ 2 ^ 52 ≤ k) :
    (pack .binary64 (ofSignificand .positive k e)).toNat =
      min infinityWord ((e + 1074).toNat * binadeSize + k) := by
  have hsize : binadeSize = 2 ^ 52 := rfl
  rcases Nat.eq_zero_or_pos k with rfl | hpos
  · have he : e = -1074 := by omega
    rw [he]
    exact toNat_packComponents_positive 0 0
  · by_cases hcarry : k = 2 ^ 53
    · have hsignificand : ofSignificand .positive k e =
          .finite .positive (2 ^ 52) (e + 1) (by decide) := by
        rw [hcarry]
        rfl
      have hword : (e + 1 + 1074).toNat * 2 ^ 52 + 2 ^ 52 = (e + 1074).toNat * 2 ^ 52 + k := by
        omega
      rw [hsignificand, toNat_pack_finite (by norm_num) (by omega) (.inr (Nat.le_refl _)), hsize,
        hword]
    · rw [ofSignificand_of_ne hpos hcarry]
      exact toNat_pack_finite (by omega) he hlead _

/-- **A result is rounded once.** What represents a positive number with bits enough is packed into
the double nearest to this number. -/
theorem ofModel_pack_roundWithAccuracy {m : Nat} {a : Accuracy} {e : Int}
    (h : Represents (ExtendedMantissa.ofMantissaAndAccuracy m a) x) (hx : 0 < x)
    (he : e ≤ lastBit (m.log2 + e)) :
    Float.ofModel (.pack (roundWithAccuracy .binary64 .positive m e a)) = nearest (x * 2 ^ e) := by
  have hv : 0 < x * 2 ^ e := mul_pos hx (by positivity)
  obtain ⟨k, hk, hkle, hlead, hword⟩ := exists_significand hv
  rw [← ofBits_toNat_toBits (Float.ofModel _), toBits_ofModel_pack,
    roundWithAccuracy_eq h hx he hk hkle, toNat_pack_ofSignificand hkle (least_le_spacing _) hlead,
    ← hword]
  rfl

end PocketCalc.Binary64
