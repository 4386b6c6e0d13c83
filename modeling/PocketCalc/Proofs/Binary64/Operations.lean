import PocketCalc.Proofs.Binary64.Rounding
import PocketCalc.Proofs.Decimal.SignificantDigits

/-!
# Operations on doubles

Sum, difference, product and quotient of finite doubles are the exact rational result, rounded once
(`value?_add`, `value?_sub`, `value?_mul`, `value?_div`). Rounding is `rounded?`, which turns with
the sign; the values of doubles and the small whole numbers are not changed by it. An operand comes
out of a word, so its significand has no more digits than the format and its exponent is the least
one for them (`Canonical`); this is why the places of an exact product are enough to round it.
-/

namespace PocketCalc.Binary64

open Rational
open Decimal (withSign)
open Float.Model (Format UnpackedFloat totalExponent)
open Float.Model.UnpackedFloat

/-! ## Signs -/

theorem withSign_neg (s : Sign) (x : Rat) : withSign (-s) x = -withSign s x := by
  cases s
  · exact (neg_neg x).symm
  · rfl

theorem withSign_mul (s t : Sign) (x y : Rat) :
    withSign (s * t) (x * y) = withSign s x * withSign t y := by
  cases s <;> cases t
  · exact (neg_mul_neg x y).symm
  · exact (neg_mul x y).symm
  · exact (mul_neg x y).symm
  · rfl

theorem withSign_div (s t : Sign) (x y : Rat) :
    withSign (s / t) (x / y) = withSign s x / withSign t y := by
  cases s <;> cases t
  · exact (neg_div_neg_eq x y).symm
  · exact (neg_div y x).symm
  · exact (div_neg x).symm
  · rfl

/-- The rational that an unpacked double stands for. -/
def rational? : UnpackedFloat → Option Rat
  | .notANumber | .infinity _ => none
  | .zero _ => some 0
  | .finite s m e _ => some (withSign s (scaled m e))

theorem value?_eq_rational? (x : Float) : value? x = rational? (unpacked x) := by
  unfold value?
  split <;> rename_i h <;> rw [h] <;> rfl

theorem rational?_neg (u : UnpackedFloat) : rational? u.neg = (rational? u).map (-·) := by
  cases u with
  | notANumber | infinity s => rfl
  | zero s => exact congrArg some neg_zero.symm
  | finite s m e hm => exact congrArg some (withSign_neg s _)

/-! ## Packing and signs -/

/-- What is not the quiet value `NaN` is packed into fields that are not those of `NaN`. Turning the
sign turns the sign bit only. -/
theorem exists_packComponents {u : UnpackedFloat} (hu : u.isNaN = false) :
    ∃ s exponent fraction, exponent < 2 ^ 11 ∧ fraction < 2 ^ 52 ∧
      (exponent = 2047 → fraction = 0) ∧
      pack .binary64 u =
        packComponents .binary64 s (BitVec.ofNat _ exponent) (BitVec.ofNat _ fraction) ∧
      pack .binary64 u.neg =
        packComponents .binary64 (-s) (BitVec.ofNat _ exponent) (BitVec.ofNat _ fraction) := by
  cases u with
  | notANumber => cases hu
  | infinity s => exact ⟨s, 2047, 0, by decide, by decide, fun _ => rfl, rfl, rfl⟩
  | zero s => exact ⟨s, 0, 0, by decide, by decide, fun _ => rfl, rfl, rfl⟩
  | finite s m e hm =>
    have hbits : 2 ^ Format.binary64.exponentBits = 2047 + 1 := rfl
    unfold UnpackedFloat.neg pack
    dsimp only
    rw [hbits]
    split
    · exact ⟨s, 2047, 0, by decide, by decide, fun _ => rfl, rfl, rfl⟩
    · next hexp =>
      have hfraction : BitVec.ofNat Format.binary64.mantissaBitsWithoutImplicit m =
          BitVec.ofNat _ (m % 2 ^ 52) := by
        apply BitVec.eq_of_toNat_eq
        simp
      have hlt : m % 2 ^ 52 < 2 ^ 52 := Nat.mod_lt _ (by decide)
      rw [hfraction]
      split
      · exact ⟨s, _, _, by omega, hlt, fun h => by omega, rfl, rfl⟩
      · exact ⟨s, 0, m % 2 ^ 52, by decide, hlt, fun h => absurd h (by decide), rfl, rfl⟩

/-- Packing does not make the quiet value `NaN`. -/
theorem isNaN_ofModel_pack {u : UnpackedFloat} (hu : u.isNaN = false) :
    (Float.ofModel (.pack u)).isNaN = false := by
  obtain ⟨s, exponent, fraction, hexp, hfrac, hnumber, hpack, -⟩ := exists_packComponents hu
  have hfields : (Float.ofModel (.pack u)).isNaN = (ofFields s exponent fraction).isNaN := by
    rw [← unpack_packComponents hexp hfrac s, ← hpack]
    rfl
  rw [hfields]
  have h := hasFields_ofFields s exponent fraction
  generalize ofFields s exponent fraction = v at h
  cases h with
  | notANumber h => exact absurd (hnumber rfl) h
  | infinity | zero | subnormal h | normal htop hzero => rfl

theorem value?_pack_neg (u : UnpackedFloat) :
    value? (.ofModel (.pack u.neg)) = (value? (.ofModel (.pack u))).map (-·) := by
  cases hu : u.isNaN with
  | true =>
    cases u with
    | notANumber => rfl
    | infinity s | zero s | finite s m e hm => cases hu
  | false =>
    obtain ⟨s, exponent, fraction, hexp, hfrac, -, hpack, hneg⟩ := exists_packComponents hu
    rw [value?_eq_rational?, value?_eq_rational?, unpacked_ofModel_pack, unpacked_ofModel_pack,
      hpack, hneg, unpack_packComponents hexp hfrac, unpack_packComponents hexp hfrac,
      ← neg_ofFields, rational?_neg]

theorem unpacked_neg (x : Float) : unpacked (-x) = (unpacked x).neg := by
  obtain ⟨s, exponent, fraction, hexp, hfrac, hfields⟩ := exists_fields x
  have hneg : -x = .ofModel (.pack (unpacked x).neg) := rfl
  rw [hneg, hfields, neg_ofFields, unpacked_pack hexp hfrac]

theorem value?_neg (x : Float) : value? (-x) = (value? x).map (-·) := by
  rw [value?_eq_rational?, value?_eq_rational?, unpacked_neg, rational?_neg]

/-! ## One rounding -/

/-- The value of a rational that is rounded to a double: none from the midpoint above the greatest
double on. -/
def rounded? (v : Rat) : Option Rat :=
  if 0 ≤ v then value? (nearest v) else (value? (nearest (-v))).map (-·)

theorem rounded?_of_nonneg {v : Rat} (h : 0 ≤ v) : rounded? v = value? (nearest v) := if_pos h

theorem value?_nearest_zero : value? (nearest 0) = some 0 := by
  decide +kernel

@[simp] theorem rounded?_zero : rounded? 0 = some 0 := value?_nearest_zero

/-- Rounding turns with the sign. -/
theorem rounded?_neg (v : Rat) : rounded? (-v) = (rounded? v).map (-·) := by
  rcases lt_trichotomy v 0 with h | rfl | h
  · rw [rounded?_of_nonneg (by linarith), rounded?, if_neg (by linarith), Option.map_map]
    simp
  · simp
  · rw [rounded?_of_nonneg h.le, rounded?, if_neg (by linarith), neg_neg]

theorem rounded?_withSign (s : Sign) (v : Rat) :
    rounded? (withSign s v) = (rounded? v).map (withSign s) := by
  cases s
  · exact rounded?_neg v
  · exact (congrFun Option.map_id (rounded? v)).symm

/-! ## Operands -/

/-- The significand has the places of the format, and the exponent is the least one for it. -/
structure Canonical (m : Nat) (e : Int) : Prop where
  lt : m < 2 ^ 53
  least_le : -1074 ≤ e
  le_greatest : e ≤ 971
  lead : e = -1074 ∨ 2 ^ 52 ≤ m

theorem canonical_unpacked {x : Float} {s : Sign} {m : Nat} {e : Int} {h : 0 < m}
    (hx : unpacked x = .finite s m e h) : Canonical m e := by
  obtain ⟨t, exponent, fraction, hexp, hfrac, hfields⟩ := exists_fields x
  have hbounds : exponent < 2047 + 1 := hexp
  have hfinite := hasFields_ofFields t exponent fraction
  rw [← hfields, hx] at hfinite
  cases hfinite with
  | subnormal h => exact ⟨by omega, by omega, by omega, .inl rfl⟩
  | normal htop hzero => exact ⟨by omega, by omega, by omega, .inr (by omega)⟩

/-- What has a value is a zero or finite, with the value of its significand and exponent. -/
theorem unpacked_cases {x : Float} {a : Rat} (hx : value? x = some a) :
    (∃ s, unpacked x = .zero s ∧ a = 0) ∨
      ∃ s m e h, unpacked x = .finite s m e h ∧ Canonical m e ∧ a = withSign s (scaled m e) := by
  rcases value?_cases hx with ⟨s, hu, rfl⟩ | ⟨m, e, h, ⟨hu, rfl⟩ | ⟨hu, rfl⟩⟩
  · exact .inl ⟨s, hu, rfl⟩
  · exact .inr ⟨.positive, m, e, h, hu, canonical_unpacked hu, rfl⟩
  · exact .inr ⟨.negative, m, e, h, hu, canonical_unpacked hu, rfl⟩

theorem Canonical.rounded? {m : Nat} {e : Int} (h : Canonical m e) (hm : 0 < m) :
    Binary64.rounded? (scaled m e) = some (scaled m e) := by
  obtain ⟨hlt, hlow, hhigh, hlead⟩ := h
  have hsize : binadeSize = 2 ^ 52 := rfl
  obtain ⟨a, ha⟩ := Int.eq_ofNat_of_zero_le (by omega : 0 ≤ e + 1074)
  have he : e = a - 1074 := by omega
  have hfinite : a * binadeSize + m < infinityWord := by
    rw [hsize, infinityWord_eq]
    omega
  have hlead' : a = 0 ∨ 2 ^ 52 ≤ m := by omega
  rw [rounded?_of_nonneg (Decimal.scaled_pos hm e).le, he, nearest,
    nearestWord_scaled hm hlt hlead' hfinite, value?_ofBits hlt.le hlead' hfinite]

/-- The value of a double is not changed by rounding. -/
theorem rounded?_value {x : Float} {a : Rat} (hx : value? x = some a) : rounded? a = some a := by
  rcases unpacked_cases hx with ⟨s, -, rfl⟩ | ⟨s, m, e, hm, -, hcanonical, rfl⟩
  · exact rounded?_zero
  · rw [rounded?_withSign, hcanonical.rounded? hm]
    rfl

/-! ## Results -/

section

variable {m : Nat} {e f : Int}

theorem log2_shiftLeft (hm : 0 < m) (n : Nat) : (m <<< n).log2 = m.log2 + n := by
  obtain ⟨hlow, hhigh⟩ := (Nat.log2_eq_iff hm.ne').mp rfl
  have hpow : 0 < 2 ^ n := Nat.two_pow_pos n
  rw [Nat.shiftLeft_eq, Nat.log2_eq_iff (Nat.mul_pos hm hpow).ne', add_right_comm,
    pow_add 2 m.log2 n, pow_add 2 (m.log2 + 1) n]
  exact ⟨Nat.mul_le_mul_right _ hlow, Nat.mul_lt_mul_of_pos_right hhigh hpow⟩

/-- Places that are added to the significand are taken from the exponent. -/
theorem scaled_shiftLeft (m : Nat) (h : f ≤ e) : scaled (m <<< (e - f).toNat) f = scaled m e := by
  obtain ⟨n, hn⟩ := Int.eq_ofNat_of_zero_le (by omega : 0 ≤ e - f)
  have he : e = n + f := by omega
  rw [hn, Int.toNat_natCast, Nat.shiftLeft_eq, scaled, scaled, he, zpow_add₀ (by norm_num),
    zpow_natCast]
  push_cast
  ring

theorem value?_zero : value? 0 = some 0 := by
  decide +kernel

theorem value?_pack_zero (s : Sign) : value? (.ofModel (.pack (.zero s))) = some 0 := by
  cases s <;> decide +kernel

theorem cast_apply (s : Sign) (m : Nat) (e : Int) :
    ((s.apply m : Int) : Rat) * 2 ^ e = withSign s (scaled m e) := by
  cases s <;> simp [Sign.apply, withSign, scaled]

theorem value?_roundWithAccuracy {a : Accuracy} {x : Rat}
    (h : Represents (ExtendedMantissa.ofMantissaAndAccuracy m a) x) (hx : 0 < x)
    (he : e ≤ lastBit (m.log2 + e)) (s : Sign) :
    value? (.ofModel (.pack (roundWithAccuracy .binary64 s m e a))) =
      rounded? (withSign s (x * 2 ^ e)) := by
  have hpositive : value? (.ofModel (.pack (roundWithAccuracy .binary64 .positive m e a))) =
      rounded? (x * 2 ^ e) := by
    rw [ofModel_pack_roundWithAccuracy h hx he, rounded?_of_nonneg (by positivity)]
  cases s with
  | positive => exact hpositive
  | negative =>
    have hneg : roundWithAccuracy .binary64 .negative m e a =
        (roundWithAccuracy .binary64 .positive m e a).neg := by
      unfold roundWithAccuracy
      dsimp only
      rw [apply_dite UnpackedFloat.neg]
      rfl
    rw [hneg, value?_pack_neg, hpositive]
    exact (rounded?_neg _).symm

/-- A significand that is too short for its exponent is made longer first. -/
theorem value?_round (hm : 0 < m) (e : Int) (s : Sign) :
    value? (.ofModel (.pack (UnpackedFloat.round .binary64 s m e))) =
      rounded? (withSign s (scaled m e)) := by
  obtain ⟨f, hf⟩ : ∃ f, f = min e (lastBit (m.log2 + e)) := ⟨_, rfl⟩
  have hshift : (e - lastBit (m.log2 + e)).toNat = (e - f).toNat := by omega
  have hexp : e - ((e - f).toNat : Int) = f := by omega
  have hlong : UnpackedFloat.round .binary64 s m e =
      roundWithAccuracy .binary64 s (m <<< (e - f).toNat) f .exact := by
    unfold UnpackedFloat.round decreaseExponent
    simp only [targetExponent_eq, hshift, hexp]
  have hplaces : f ≤ lastBit ((m <<< (e - f).toNat).log2 + f) := by
    have hsame : ((m <<< (e - f).toNat).log2 : Int) + f = m.log2 + e := by
      rw [log2_shiftLeft hm]
      omega
    rw [hsame]
    omega
  have hpos : 0 < m <<< (e - f).toNat := Nat.shiftLeft_pos_iff.mpr hm
  rw [hlong, value?_roundWithAccuracy (represents_natCast _) (by exact_mod_cast hpos) hplaces]
  rw [← scaled_shiftLeft m (by omega : f ≤ e), scaled]

theorem value?_normalize (n : Int) (e : Int) (s : Sign) :
    value? (.ofModel (.pack (UnpackedFloat.normalize .binary64 n e s))) =
      rounded? (n * 2 ^ e) := by
  unfold UnpackedFloat.normalize
  rcases lt_trichotomy n 0 with h | rfl | h
  · obtain ⟨m, rfl⟩ : ∃ m : Nat, n = -m := ⟨n.natAbs, by omega⟩
    rw [compare_lt_iff_lt.mpr h]
    dsimp only
    rw [neg_neg, Int.toNat_natCast, value?_round (by omega)]
    simp [withSign, scaled]
  · simpa using value?_pack_zero s
  · obtain ⟨m, rfl⟩ := Int.eq_ofNat_of_zero_le h.le
    rw [compare_gt_iff_gt.mpr h]
    dsimp only
    rw [Int.toNat_natCast, value?_round (by omega)]
    simp [withSign, scaled]

end

/-! ## The four operations -/

section

variable {x y : Float} {a b : Rat}

theorem value?_ofModel_pack_unpacked (x : Float) :
    value? (.ofModel (.pack (unpacked x))) = value? x := by
  obtain ⟨s, exponent, fraction, hexp, hfrac, hfields⟩ := exists_fields x
  rw [value?_eq_rational?, value?_eq_rational?, hfields, unpacked_pack hexp hfrac]

/-- The sum is rounded once. -/
theorem value?_add (hx : value? x = some a) (hy : value? y = some b) :
    value? (x + y) = rounded? (a + b) := by
  have hadd : x + y = .ofModel (.pack (add .binary64 (unpacked x) (unpacked y))) := rfl
  rcases unpacked_cases hx with ⟨s, hu, rfl⟩ | ⟨s, m, e, hm, hu, -, rfl⟩ <;>
    rcases unpacked_cases hy with ⟨t, hv, rfl⟩ | ⟨t, n, f, hn, hv, -, rfl⟩
  · have hzero : ∃ r, add .binary64 (.zero s) (.zero t) = .zero r := by
      cases s <;> cases t <;> exact ⟨_, rfl⟩
    obtain ⟨r, hr⟩ := hzero
    rw [hadd, hu, hv, hr, add_zero, rounded?_zero, value?_pack_zero]
  · have hright : add .binary64 (.zero s) (unpacked y) = unpacked y := by
      rw [hv]
      rfl
    rw [hadd, hu, hright, value?_ofModel_pack_unpacked, hy, zero_add, rounded?_value hy]
  · have hleft : add .binary64 (unpacked x) (.zero t) = unpacked x := by
      rw [hu]
      rfl
    rw [hadd, hv, hleft, value?_ofModel_pack_unpacked, hx, add_zero, rounded?_value hx]
  · -- both significands are brought to the smaller exponent
    rw [hadd, hu, hv]
    unfold add decreaseExponent
    dsimp only
    rw [value?_normalize, Int.cast_add, add_mul, cast_apply, cast_apply,
      scaled_shiftLeft m (min_le_left e f), scaled_shiftLeft n (min_le_right e f)]

/-- Subtracting is adding the negative. -/
theorem sub_eq_add (x y : Float) : x - y = x + -y := by
  have hsub : x - y = .ofModel (.pack (sub .binary64 (unpacked x) (unpacked y))) := rfl
  have hadd : x + -y = .ofModel (.pack (add .binary64 (unpacked x) (unpacked (-y)))) := rfl
  have hneg : ∀ u v : UnpackedFloat, sub .binary64 u v = add .binary64 u v.neg := by
    intro u v
    rcases u with s | _ | s | ⟨s, m, e, hm⟩ <;> rcases v with t | _ | t | ⟨t, n, f, hn⟩ <;> try rfl
    unfold sub add UnpackedFloat.neg
    cases t <;> simp [Sign.apply, Int.sub_eq_add_neg]
  rw [hsub, hadd, unpacked_neg, hneg]

/-- The difference is rounded once. -/
theorem value?_sub (hx : value? x = some a) (hy : value? y = some b) :
    value? (x - y) = rounded? (a - b) := by
  have hneg : value? (-y) = some (-b) := by
    rw [value?_neg, hy]
    rfl
  rw [sub_eq_add, value?_add hx hneg, ← Rat.sub_eq_add_neg]

/-- The product is rounded once. The operands are canonical, so it has places enough. -/
theorem value?_mul (hx : value? x = some a) (hy : value? y = some b) :
    value? (x * y) = rounded? (a * b) := by
  have hmul : x * y = .ofModel (.pack (mul .binary64 (unpacked x) (unpacked y))) := rfl
  rcases unpacked_cases hx with ⟨s, hu, rfl⟩ | ⟨s, m, e, hm, hu, hcm, rfl⟩ <;>
    rcases unpacked_cases hy with ⟨t, hv, rfl⟩ | ⟨t, n, f, hn, hv, hcn, rfl⟩ <;>
    rw [hmul, hu, hv]
  · rw [zero_mul, rounded?_zero]
    exact value?_pack_zero _
  · rw [zero_mul, rounded?_zero]
    exact value?_pack_zero _
  · rw [mul_zero, rounded?_zero]
    exact value?_pack_zero _
  · have hpos : 0 < m * n := Nat.mul_pos hm hn
    have hplaces : e + f ≤ lastBit ((m * n).log2 + (e + f)) := by
      have helow := hcm.least_le
      have hflow := hcn.least_le
      have hmlead := hcm.lead
      have hnlead := hcn.lead
      have hlong : (e = -1074 ∧ f = -1074) ∨ 52 ≤ (m * n).log2 := by
        by_cases hleast : e = -1074 ∧ f = -1074
        · exact .inl hleast
        · refine .inr ((Nat.le_log2 hpos.ne').mpr ?_)
          rcases (by omega : 2 ^ 52 ≤ m ∨ 2 ^ 52 ≤ n) with h | h
          · exact h.trans (Nat.le_mul_of_pos_right m hn)
          · exact h.trans (Nat.le_mul_of_pos_left n hm)
      unfold lastBit
      omega
    have hvalue : ((m * n : Nat) : Rat) * 2 ^ (e + f) = scaled m e * scaled n f := by
      rw [zpow_add₀ (by norm_num), scaled, scaled]
      push_cast
      ring
    unfold mul
    dsimp only
    rw [value?_roundWithAccuracy (represents_natCast _) (by exact_mod_cast hpos) hplaces, hvalue,
      withSign_mul]

/-- The quotient of two significands, with the places it is worked out to, is long enough to be
rounded. -/
theorem divCore_places {m n : Nat} (hm : 0 < m) (hn : 0 < n) (e f : Int) :
    ∃ places : Nat, ∃ g : Int, (places : Int) = e - f - g ∧
      divCore .binary64 m e n f =
        (m <<< places / n, g, accuracyOfFraction (m <<< places % n) n) ∧
      g ≤ lastBit ((m <<< places / n).log2 + g) := by
  obtain ⟨g, hg⟩ : ∃ g, g = min (e - f)
    (Format.binary64.targetExponent (totalExponent m e - totalExponent n f)) := ⟨_, rfl⟩
  have hmin : g = min (e - f) (max (-1074) ((m.log2 + e) - (n.log2 + f) - 53)) := by
    rw [hg]
    have hbits : Format.binary64.mantissaBits = 53 := rfl
    simp only [Format.targetExponent, totalExponent, hbits, Format.minExponent]
    norm_num
    omega
  obtain ⟨places, hplaces⟩ := Int.eq_ofNat_of_zero_le (by omega : 0 ≤ e - f - g)
  refine ⟨places, g, hplaces.symm, ?_, ?_⟩
  · unfold divCore
    simp only [← hg, hplaces, Int.toNat_natCast]
  · by_cases hleast : g ≤ -1074
    · unfold lastBit
      omega
    · -- one place more than the significand has, for the quotient may be one place short
      have hlong : 53 + n.log2 ≤ m.log2 + places := by omega
      have hquot : 2 ^ 52 ≤ m <<< places / n := by
        have hlow := ((Nat.log2_eq_iff hm.ne').mp rfl).1
        have hhigh := ((Nat.log2_eq_iff hn.ne').mp rfl).2
        rw [Nat.le_div_iff_mul_le hn, Nat.shiftLeft_eq]
        calc 2 ^ 52 * n ≤ 2 ^ 52 * 2 ^ (n.log2 + 1) := Nat.mul_le_mul_left _ hhigh.le
          _ = 2 ^ (53 + n.log2) := by rw [← pow_add]; congr 1; omega
          _ ≤ 2 ^ (m.log2 + places) := Nat.pow_le_pow_right (by norm_num) hlong
          _ = 2 ^ m.log2 * 2 ^ places := pow_add 2 _ _
          _ ≤ m * 2 ^ places := Nat.mul_le_mul_right _ hlow
      have hlog : 52 ≤ (m <<< places / n).log2 := by
        rw [Nat.le_log2 (by intro h; rw [h] at hquot; cases hquot)]
        exact hquot
      unfold lastBit
      omega

/-- The quotient by what is not zero is rounded once. -/
theorem value?_div (hx : value? x = some a) (hy : value? y = some b) (hb : b ≠ 0) :
    value? (x / y) = rounded? (a / b) := by
  have hdiv : x / y = .ofModel (.pack (div .binary64 (unpacked x) (unpacked y))) := rfl
  obtain ⟨t, n, f, hn, hv, -, rfl⟩ : ∃ t n f hn, unpacked y = .finite t n f hn ∧ Canonical n f ∧
      b = withSign t (scaled n f) :=
    (unpacked_cases hy).resolve_left fun ⟨_, _, hzero⟩ => hb hzero
  rcases unpacked_cases hx with ⟨s, hu, rfl⟩ | ⟨s, m, e, hm, hu, -, rfl⟩ <;> rw [hdiv, hu, hv]
  · rw [zero_div, rounded?_zero]
    exact value?_pack_zero _
  · obtain ⟨places, g, hplaces, hcore, hlong⟩ := divCore_places hm hn e f
    have hpos : (0 : Rat) < (m <<< places : Nat) / n := by
      have hm' : 0 < m <<< places := Nat.shiftLeft_pos_iff.mpr hm
      exact div_pos (by exact_mod_cast hm') (by exact_mod_cast hn)
    have hvalue : ((m <<< places : Nat) : Rat) / n * 2 ^ g = scaled m e / scaled n f := by
      have hexp : (2 : Rat) ^ g = 2 ^ e / (2 ^ f * 2 ^ places) := by
        rw [← zpow_natCast 2 places, ← zpow_add₀ (by norm_num), ← zpow_sub₀ (by norm_num)]
        congr 1
        omega
      have hn' : (n : Rat) ≠ 0 := by exact_mod_cast hn.ne'
      rw [hexp, scaled, scaled, Nat.shiftLeft_eq]
      push_cast
      field_simp
    unfold div
    dsimp only
    rw [hcore]
    dsimp only
    rw [value?_roundWithAccuracy (represents_div _ hn) hpos hlong, hvalue, withSign_div]

end

end PocketCalc.Binary64
