import PocketCalc.Proofs.Decimal.Display

/-!
# Doubles without a sign

The words up to that of infinity are the doubles without a sign bit that are numbers, infinity being
the last of them (`unsigned_of_toBits_le`). A finite one is the double nearest to its own value
(`nearest_of_unsigned`). Neither rounding a rational nor dividing by a positive number leaves these
words.
-/

namespace PocketCalc.Binary64

open Rational
open Float.Model (Format UnpackedFloat)
open Float.Model.UnpackedFloat

/-- A finite double without a sign bit. -/
structure Unsigned (x : Float) : Prop where
  isFinite : x.isFinite = true
  sign : x.toBits.toNat < 2 ^ 63

/-! ## Words -/

theorem infinityWord_eq : infinityWord = 2047 * 2 ^ 52 := rfl

theorem toNat_packComponents_positive (e : BitVec 11) (m : BitVec 52) :
    (packComponents .binary64 .positive e m).toNat = e.toNat * 2 ^ 52 + m.toNat := by
  have hpositive : (Sign.positive.toBitVec).toNat = 0 := rfl
  rw [toNat_packComponents, hpositive, Nat.zero_mul, Nat.zero_add]

/-- No sign bit and not the quiet value `NaN`. -/
def IsPositive : UnpackedFloat → Prop
  | .infinity s | .zero s | .finite s _ _ _ => s = .positive
  | .notANumber => False

/-- Packing a positive result gives a word up to that of infinity. -/
theorem toNat_pack_le {u : UnpackedFloat} (h : IsPositive u) :
    (pack .binary64 u).toNat ≤ infinityWord := by
  have hcomponents : ∀ (e : BitVec 11) (m : BitVec 52), e.toNat < 2047 →
      (packComponents .binary64 .positive e m).toNat ≤ infinityWord := by
    intro e m he
    have hm := m.isLt
    rw [toNat_packComponents_positive, infinityWord_eq]
    omega
  have hinfinity : (packedInfinity .binary64 .positive).toNat = infinityWord :=
    toNat_packComponents_positive (-1#11) 0
  cases u with
  | notANumber => exact h.elim
  | infinity s =>
    cases h
    exact hinfinity.le
  | zero s =>
    cases h
    exact hcomponents 0 0 (by decide)
  | finite s m e hm =>
    cases h
    unfold pack
    dsimp only
    split
    · exact hinfinity.le
    · next hlt =>
      split
      · refine hcomponents _ _ ?_
        rw [BitVec.toNat_ofNat]
        omega
      · exact hcomponents _ _ (by decide)

/-- Rounding a significand leaves a zero or a finite double, with the sign that was given. -/
theorem roundWithAccuracy_cases (s : Sign) (m : Nat) (e : Int) (a : Accuracy) :
    roundWithAccuracy .binary64 s m e a = .zero s ∨
      ∃ n f h, roundWithAccuracy .binary64 s m e a = .finite s n f h := by
  unfold roundWithAccuracy
  dsimp only
  exact (dite_eq_or_eq _).imp (fun ⟨_, h⟩ => h) fun ⟨_, h⟩ => ⟨_, _, _, h⟩

/-- Dividing by a positive number keeps the sign. -/
theorem IsPositive.div {u v : UnpackedFloat} (h : IsPositive u) {m : Nat} {e : Int} {hm : 0 < m}
    (hv : v = .finite .positive m e hm) : IsPositive (div .binary64 u v) := by
  subst hv
  cases u with
  | notANumber => exact h.elim
  | infinity s | zero s =>
    cases h
    rfl
  | finite s n f hn =>
    cases h
    unfold UnpackedFloat.div
    dsimp only
    rcases roundWithAccuracy_cases (.positive / .positive) _ _ _ with hr | ⟨k, g, hk, hr⟩ <;>
      rw [hr] <;> rfl

theorem isPositive_ofFields {exponent fraction : Nat} (h : exponent < 2047 ∨ fraction = 0) :
    IsPositive (ofFields .positive exponent fraction) := by
  have hfields := hasFields_ofFields .positive exponent fraction
  generalize ofFields .positive exponent fraction = u at hfields
  cases hfields with
  | notANumber hfraction => omega
  | infinity | zero | subnormal h | normal htop hzero => rfl

/-! ## Doubles that words give -/

/-- The word of a result that is packed. -/
theorem toBits_ofModel_pack (u : UnpackedFloat) :
    (Float.ofModel (.pack u)).toBits.toNat = (pack .binary64 u).toNat := rfl

theorem isPositive_unpacked {x : Float} (h : x.toBits.toNat ≤ infinityWord) :
    IsPositive (unpacked x) := by
  rw [infinityWord_eq] at h
  rw [← ofBits_toNat_toBits x, unpacked_ofBits (by omega)]
  exact isPositive_ofFields (by omega)

theorem toNat_toBits_ofBits {w : Nat} (h : w ≤ infinityWord) :
    (Float.ofBits (UInt64.ofNat w)).toBits.toNat = w := by
  rw [infinityWord_eq] at h
  have hnumber : w / 2 ^ 52 = 2047 → w % 2 ^ 52 = 0 := by omega
  rw [ofBits_eq_ofModel_pack (by omega), toBits_ofModel_pack,
    pack_ofFields (by omega) (by omega) hnumber, toNat_packComponents_positive, BitVec.toNat_ofNat,
    BitVec.toNat_ofNat, Nat.mod_eq_of_lt (by omega), Nat.mod_eq_of_lt (by omega)]
  omega

/-- The double nearest to a rational has the word that was looked for. -/
theorem toBits_nearest (x : Rat) : (nearest x).toBits.toNat = nearestWord x :=
  toNat_toBits_ofBits (nearestWord_le_infinityWord x)

theorem isFinite_ofFields {s : Sign} {exponent fraction : Nat} :
    (ofFields s exponent fraction).isFinite = true ↔ exponent ≠ 2047 := by
  have h := hasFields_ofFields s exponent fraction
  generalize ofFields s exponent fraction = u at h
  cases h with
  | infinity | notANumber h => exact iff_of_false Bool.false_ne_true (not_not_intro rfl)
  | zero | subnormal h => exact iff_of_true rfl (by decide)
  | normal htop hzero => exact iff_of_true rfl htop

/-- Below infinity the words are the finite doubles without a sign. -/
theorem unsigned_iff {x : Float} : Unsigned x ↔ x.toBits.toNat < infinityWord := by
  have hfinite : x.toBits.toNat < 2 ^ 63 → (x.isFinite = true ↔ x.toBits.toNat / 2 ^ 52 ≠ 2047) := by
    intro h
    have hunpacked := unpacked_ofBits h
    rw [ofBits_toNat_toBits] at hunpacked
    rw [← isFinite_ofFields, ← hunpacked]
    rfl
  rw [infinityWord_eq]
  constructor
  · rintro ⟨hx, hsign⟩
    have hexponent := (hfinite hsign).mp hx
    omega
  · intro h
    have hsign : x.toBits.toNat < 2 ^ 63 := by omega
    exact ⟨(hfinite hsign).mpr (by omega), hsign⟩

/-- Up to the word of infinity, only infinity is not finite. -/
theorem unsigned_of_toBits_le {x : Float} (h : x.toBits.toNat ≤ infinityWord)
    (hfinite : x.isInf = false) : Unsigned x := by
  rw [unsigned_iff]
  refine lt_of_le_of_ne h ?_
  intro hword
  have hinf : (Float.ofBits (UInt64.ofNat infinityWord)).isInf = true := by decide +kernel
  rw [← ofBits_toNat_toBits x, hword, hinf] at hfinite
  cases hfinite

/-- Dividing by a positive number does not lead out of these words. -/
theorem toBits_div_le {x y : Float} (h : x.toBits.toNat ≤ infinityWord) {m : Nat} {e : Int}
    {hm : 0 < m} (hy : unpacked y = .finite .positive m e hm) :
    (x / y).toBits.toNat ≤ infinityWord := by
  have hdiv : x / y = .ofModel (.pack (div .binary64 (unpacked x) (unpacked y))) := rfl
  rw [hdiv, toBits_ofModel_pack]
  exact toNat_pack_le ((isPositive_unpacked h).div hy)

/-! ## Nearest to its own value -/

/-- The value of a word is rounded to this word. `a` counts binades, `k` is the significand. -/
theorem nearestWord_scaled {a k : Nat} (hpos : 0 < k) (hk : k < 2 ^ 53)
    (hlead : a = 0 ∨ 2 ^ 52 ≤ k) (hfinite : a * binadeSize + k < infinityWord) :
    nearestWord (scaled k (a - 1074)) = a * binadeSize + k := by
  have hunit : (0 : Rat) < 2 ^ ((a : Int) - 1074) := by positivity
  have hx : 0 < scaled k (a - 1074) := Decimal.scaled_pos hpos _
  have hhigh : magnitude 2 (scaled k (a - 1074)) < 53 + (a - 1074) := by
    rw [← not_le, le_magnitude_iff (Nat.le_refl _) hx, not_le, zpow_add₀ (by norm_num)]
    exact mul_lt_mul_of_pos_right (by exact_mod_cast hk) hunit
  have hspacing : spacing (scaled k (a - 1074)) = a - 1074 := by
    unfold spacing
    rcases hlead with rfl | hlead
    · omega
    · have hlow : 52 + ((a : Int) - 1074) ≤ magnitude 2 (scaled k (a - 1074)) := by
        rw [le_magnitude_iff (Nat.le_refl _) hx, zpow_add₀ (by norm_num)]
        exact mul_le_mul_of_nonneg_right (by exact_mod_cast hlead) hunit.le
      omega
  have hquot : scaled k (a - 1074) / 2 ^ ((a : Int) - 1074) = ((k : Int) : Rat) := by
    rw [scaled, mul_div_cancel_right₀ _ hunit.ne']
    rfl
  have hcount : ((a : Int) - 1074 + 1074).toNat = a := by omega
  unfold nearestWord
  rw [if_neg (not_le.mpr hx)]
  simp only [hspacing, hquot, halfEven_intCast, Int.toNat_natCast, hcount]
  exact Nat.min_eq_right hfinite.le

/-- A finite double without a sign is zero or the double nearest to its own value. -/
theorem nearest_of_unsigned {x : Float} (h : Unsigned x) : x = 0 ∨ ∃ m e hm,
    unpacked x = .finite .positive m e hm ∧ nearest (scaled m e) = x := by
  have hword := unsigned_iff.mp h
  obtain ⟨a, k, hw, hk, hlead⟩ : ∃ a k, x.toBits.toNat = a * binadeSize + k ∧ k < 2 ^ 53 ∧
      (a = 0 ∨ 2 ^ 52 ≤ k) := by
    have hsize : binadeSize = 2 ^ 52 := rfl
    rw [hsize]
    by_cases hsub : x.toBits.toNat < 2 ^ 52
    · exact ⟨0, x.toBits.toNat, by omega, by omega, .inl rfl⟩
    · exact ⟨x.toBits.toNat / 2 ^ 52 - 1, 2 ^ 52 + x.toBits.toNat % 2 ^ 52, by omega, by omega,
        .inr (by omega)⟩
  have hx := ofBits_toNat_toBits x
  rw [hw] at hword hx
  by_cases hzero : k = 0
  · refine .inl ?_
    have ha : a = 0 := by omega
    rw [← hx, ha, hzero]
    decide +kernel
  · have hpos : 0 < k := Nat.pos_of_ne_zero hzero
    have hvalue := value?_ofBits hk.le hlead hword
    rw [hx] at hvalue
    obtain ⟨m, e, hm, hunpacked, hscaled⟩ :=
      Decimal.exists_unpacked_of_pos hvalue (Decimal.scaled_pos hpos _)
    refine .inr ⟨m, e, hm, hunpacked, ?_⟩
    rw [hscaled, nearest, nearestWord_scaled hpos hk hlead hword, hx]

end PocketCalc.Binary64
