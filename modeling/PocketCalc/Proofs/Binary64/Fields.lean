import Mathlib.Algebra.Group.Nat.Defs
import PocketCalc.Binary64

/-!
# The fields of a double

A double is a sign, an exponent field of eleven bits and a fraction field of 52 bits. Unpacking a
word reads these fields, and packing writes them, so a result that has fields loses nothing when it
is packed (`unpacked_pack`). Turning the sign keeps the other two fields, so a double subtracted
from zero is its negative, without any rounding.
-/

namespace PocketCalc.Binary64

open Float.Model (Format UnpackedFloat)
open Float.Model.UnpackedFloat

/-- The double with a sign, an exponent field and a fraction field. -/
def ofFields (s : Sign) (exponent fraction : Nat) : UnpackedFloat :=
  if exponent = 2047 then
    if fraction = 0 then .infinity s else .notANumber
  else if exponent = 0 then
    if h : fraction = 0 then .zero s else .finite s fraction (-1074) (Nat.pos_of_ne_zero h)
  else .finite s (2 ^ 52 + fraction) (exponent - 1075) (by omega)

/-- The double with a sign, an exponent field and a fraction field is `u`: one case for each kind of
double. -/
inductive HasFields (s : Sign) : Nat → Nat → UnpackedFloat → Prop where
  | infinity : HasFields s 2047 0 (.infinity s)
  | notANumber {fraction} : fraction ≠ 0 → HasFields s 2047 fraction .notANumber
  | zero : HasFields s 0 0 (.zero s)
  | subnormal {fraction} (h : 0 < fraction) :
      HasFields s 0 fraction (.finite s fraction (-1074) h)
  | normal {exponent fraction} : exponent ≠ 2047 → exponent ≠ 0 →
      HasFields s exponent fraction (.finite s (2 ^ 52 + fraction) (exponent - 1075) (by omega))

theorem HasFields.eq {s : Sign} {exponent fraction : Nat} {u : UnpackedFloat}
    (h : HasFields s exponent fraction u) : ofFields s exponent fraction = u := by
  cases h with
  | infinity | zero => rfl
  | notANumber h => rw [ofFields, if_pos rfl, if_neg h]
  | subnormal h => rw [ofFields, if_neg (by decide), if_pos rfl, dif_neg (Nat.ne_of_gt h)]
  | normal htop hzero => rw [ofFields, if_neg htop, if_neg hzero]

theorem hasFields_ofFields (s : Sign) (exponent fraction : Nat) :
    HasFields s exponent fraction (ofFields s exponent fraction) := by
  obtain ⟨u, h⟩ : ∃ u, HasFields s exponent fraction u := by
    by_cases htop : exponent = 2047
    · subst htop
      by_cases hfraction : fraction = 0
      · subst hfraction
        exact ⟨_, .infinity⟩
      · exact ⟨_, .notANumber hfraction⟩
    · by_cases hzero : exponent = 0
      · subst hzero
        rcases Nat.eq_zero_or_pos fraction with rfl | hfraction
        · exact ⟨_, .zero⟩
        · exact ⟨_, .subnormal hfraction⟩
      · exact ⟨_, .normal htop hzero⟩
  rw [h.eq]
  exact h

theorem neg_ofFields (s : Sign) (exponent fraction : Nat) :
    (ofFields s exponent fraction).neg = ofFields (-s) exponent fraction := by
  have h := hasFields_ofFields s exponent fraction
  generalize ofFields s exponent fraction = u at h
  have hneg : HasFields (-s) exponent fraction u.neg := by
    cases h with
    | infinity => exact .infinity
    | notANumber h => exact .notANumber h
    | zero => exact .zero
    | subnormal h => exact .subnormal h
    | normal htop hzero => exact .normal htop hzero
  exact hneg.eq.symm

/-! ## Unpacking -/

theorem toNat_unpackMantissa (b : BitVec Format.binary64.numBits) :
    (unpackMantissa b).toNat = b.toNat % 2 ^ 52 := by
  unfold unpackMantissa
  rw [BitVec.toNat_cast, BitVec.extractLsb_toNat]
  simp

theorem toNat_unpackExponent (b : BitVec Format.binary64.numBits) :
    (unpackExponent b).toNat = b.toNat / 2 ^ 52 % 2 ^ 11 := by
  unfold unpackExponent
  rw [BitVec.toNat_cast, BitVec.extractLsb_toNat]
  simp [Nat.shiftRight_eq_div_pow]

theorem toNat_unpackSign (b : BitVec Format.binary64.numBits) :
    (unpackSign b).toNat = b.toNat / 2 ^ 63 % 2 := by
  unfold unpackSign
  rw [BitVec.toNat_cast, BitVec.extractLsb_toNat]
  simp [Nat.shiftRight_eq_div_pow]

/-- The significand with its implicit bit. -/
theorem toNat_implicit (m : BitVec 52) : (1#1 ++ m).toNat = 2 ^ 52 + m.toNat := by
  rw [BitVec.toNat_append, ← Nat.shiftLeft_add_eq_or_of_lt m.isLt]
  rfl

theorem finite_congr {s : Sign} {m n : Nat} {e f : Int} {hm : 0 < m} {hn : 0 < n} (h : m = n)
    (he : e = f) : UnpackedFloat.finite s m e hm = .finite s n f hn := by
  subst h he
  rfl

/-- Unpacking reads the three fields. -/
theorem hasFields_unpack (b : BitVec Format.binary64.numBits) :
    HasFields (Sign.ofBitVec (unpackSign b)) (unpackExponent b).toNat (unpackMantissa b).toNat
      (unpack .binary64 b) := by
  have htop : unpackExponent b = -1#11 ↔ (unpackExponent b).toNat = 2047 := BitVec.toNat_inj.symm
  have hzero : unpackExponent b = 0#11 ↔ (unpackExponent b).toNat = 0 := BitVec.toNat_inj.symm
  have hfraction : unpackMantissa b = 0#52 ↔ (unpackMantissa b).toNat = 0 := BitVec.toNat_inj.symm
  unfold unpack
  dsimp only
  by_cases hexponent : unpackExponent b = -1#11
  · rw [if_pos hexponent, htop.mp hexponent]
    by_cases h : unpackMantissa b = 0#52
    · rw [if_pos h, hfraction.mp h]
      exact .infinity
    · rw [if_neg h]
      exact .notANumber (mt hfraction.mpr h)
  · rw [if_neg hexponent]
    by_cases hsmall : unpackExponent b = 0#11
    · rw [if_pos hsmall, hzero.mp hsmall]
      by_cases h : unpackMantissa b = 0#52
      · rw [dif_pos h, hfraction.mp h]
        exact .zero
      · rw [dif_neg h]
        exact .subnormal (Nat.pos_of_ne_zero (mt hfraction.mpr h))
    · rw [if_neg hsmall, finite_congr (toNat_implicit _) rfl]
      exact .normal (mt htop.mpr hexponent) (mt hzero.mpr hsmall)

theorem unpack_eq_ofFields (b : BitVec Format.binary64.numBits) :
    unpack .binary64 b = ofFields (Sign.ofBitVec (unpackSign b)) (unpackExponent b).toNat
      (unpackMantissa b).toNat :=
  (hasFields_unpack b).eq.symm

/-- Every double has fields. -/
theorem exists_fields (x : Float) : ∃ s exponent fraction, exponent < 2 ^ 11 ∧ fraction < 2 ^ 52 ∧
    unpacked x = ofFields s exponent fraction := by
  obtain ⟨b, hb⟩ : ∃ b : BitVec Format.binary64.numBits, unpacked x = unpack .binary64 b :=
    ⟨x.toBits.toBitVec, rfl⟩
  refine ⟨Sign.ofBitVec (unpackSign b), _, _, (unpackExponent b).isLt, (unpackMantissa b).isLt, ?_⟩
  rw [hb, unpack_eq_ofFields]

/-! ## Packing -/

/-- The three fields stand side by side in the word. -/
theorem toNat_packComponents (s : Sign) (e : BitVec 11) (m : BitVec 52) :
    (packComponents .binary64 s e m).toNat =
      s.toBitVec.toNat * 2 ^ 63 + e.toNat * 2 ^ 52 + m.toNat := by
  have hword : packComponents .binary64 s e m = s.toBitVec ++ e ++ m := rfl
  rw [hword, BitVec.toNat_append, ← Nat.shiftLeft_add_eq_or_of_lt m.isLt, BitVec.toNat_append,
    ← Nat.shiftLeft_add_eq_or_of_lt e.isLt, Nat.shiftLeft_eq, Nat.shiftLeft_eq]
  omega

theorem ofBitVec_unpackSign_packComponents (s : Sign) (e : BitVec 11) (m : BitVec 52) :
    Sign.ofBitVec (unpackSign (packComponents .binary64 s e m)) = s := by
  have hsign : unpackSign (packComponents .binary64 s e m) = s.toBitVec := by
    apply BitVec.eq_of_toNat_eq
    rw [toNat_unpackSign, toNat_packComponents]
    omega
  rw [hsign]
  cases s <;> rfl

theorem unpack_packComponents {exponent fraction : Nat} (hexp : exponent < 2 ^ 11)
    (hfrac : fraction < 2 ^ 52) (s : Sign) :
    unpack .binary64
        (packComponents .binary64 s (BitVec.ofNat _ exponent) (BitVec.ofNat _ fraction)) =
      ofFields s exponent fraction := by
  rw [unpack_eq_ofFields, ofBitVec_unpackSign_packComponents]
  simp only [unpackExponent_packComponents, unpackMantissa_packComponents, BitVec.toNat_ofNat,
    Nat.mod_eq_of_lt hexp, Nat.mod_eq_of_lt hfrac]

/-- The fields of a number are packed as they are. -/
theorem pack_ofFields {exponent fraction : Nat} (hexp : exponent < 2 ^ 11)
    (hfrac : fraction < 2 ^ 52) (hnumber : exponent = 2047 → fraction = 0) (s : Sign) :
    pack .binary64 (ofFields s exponent fraction) =
      packComponents .binary64 s (BitVec.ofNat _ exponent) (BitVec.ofNat _ fraction) := by
  have hbias : (Format.binary64.exponentBias : Int) +
      Format.binary64.mantissaBitsWithoutImplicit = 1075 := rfl
  have hbits : 2 ^ Format.binary64.exponentBits = 2047 + 1 := rfl
  have hplaces : Format.binary64.mantissaBits = 52 + 1 := rfl
  have h := hasFields_ofFields s exponent fraction
  generalize ofFields s exponent fraction = u at h
  cases h with
  | infinity | zero => rfl
  | notANumber h => exact absurd (hnumber rfl) h
  | subnormal h =>
    -- a significand with fewer bits has the least exponent
    have hshort : ¬ fraction.log2 + 1 = 52 + 1 := by
      have hlog := (Nat.log2_lt (Nat.ne_of_gt h)).mpr hfrac
      omega
    unfold pack
    dsimp only
    rw [Int.add_assoc, hbias, hbits, hplaces, if_neg (by omega), if_neg hshort]
  | normal htop hzero =>
    -- the implicit bit is left out of the fraction again
    have hlong : (2 ^ 52 + fraction).log2 + 1 = 52 + 1 := by
      rw [Nat.add_right_cancel_iff, Nat.log2_eq_iff (by omega)]
      omega
    have hexponent : (exponent - 1075 + 1075 : Int).toNat = exponent := by omega
    have hfraction : BitVec.ofNat 52 (2 ^ 52 + fraction) = BitVec.ofNat 52 fraction := by
      apply BitVec.eq_of_toNat_eq
      simp
    unfold pack
    dsimp only
    rw [Int.add_assoc, hbias, hbits, hplaces, hexponent, if_neg (by omega), if_pos hlong]
    exact congrArg _ hfraction

theorem unpacked_ofModel_pack (u : UnpackedFloat) :
    unpacked (.ofModel (.pack u)) = unpack .binary64 (pack .binary64 u) := rfl

/-- A double put together from fields has these fields. -/
theorem unpacked_pack {exponent fraction : Nat} (hexp : exponent < 2 ^ 11)
    (hfrac : fraction < 2 ^ 52) (s : Sign) :
    unpacked (.ofModel (.pack (ofFields s exponent fraction))) = ofFields s exponent fraction := by
  rw [unpacked_ofModel_pack]
  by_cases hnumber : exponent = 2047 → fraction = 0
  · rw [pack_ofFields hexp hfrac hnumber, unpack_packComponents hexp hfrac]
  · obtain ⟨rfl, hfraction⟩ := Classical.not_imp.mp hnumber
    rw [(HasFields.notANumber hfraction).eq]
    rfl

/-- The double that is given by its word has the fields of the word. -/
theorem ofBits_eq_ofModel_pack {w : Nat} (hw : w < 2 ^ 63) : Float.ofBits (UInt64.ofNat w) =
    .ofModel (.pack (ofFields .positive (w / 2 ^ 52) (w % 2 ^ 52))) := by
  obtain ⟨b, hb⟩ : ∃ b : BitVec Format.binary64.numBits, b = (UInt64.ofNat w).toBitVec := ⟨_, rfl⟩
  have hnat : b.toNat = w := by
    rw [hb]
    simp
    omega
  have hsign : unpackSign b = 0#1 := by
    apply BitVec.eq_of_toNat_eq
    rw [toNat_unpackSign, hnat]
    simp
    omega
  have hword : unpack .binary64 b = ofFields .positive (w / 2 ^ 52) (w % 2 ^ 52) := by
    rw [unpack_eq_ofFields, toNat_unpackExponent, toNat_unpackMantissa, hnat, hsign,
      Nat.mod_eq_of_lt (by omega)]
    rfl
  have hbits : Float.ofBits (UInt64.ofNat w) = .ofModel (.pack (unpack .binary64 b)) := by
    rw [hb]
    rfl
  rw [hbits, hword]

theorem unpacked_ofBits {w : Nat} (hw : w < 2 ^ 63) :
    unpacked (Float.ofBits (UInt64.ofNat w)) = ofFields .positive (w / 2 ^ 52) (w % 2 ^ 52) := by
  rw [ofBits_eq_ofModel_pack hw]
  exact unpacked_pack (by omega) (by omega) _

theorem packComponents_unpack (b : BitVec Format.binary64.numBits) :
    packComponents .binary64 (Sign.ofBitVec (unpackSign b)) (unpackExponent b) (unpackMantissa b) =
      b := by
  have hsign : ∀ t : BitVec 1, (Sign.ofBitVec t).toBitVec = t := by decide
  have hlt : b.toNat < 2 ^ 64 := b.isLt
  apply BitVec.eq_of_toNat_eq
  rw [toNat_packComponents, hsign, toNat_unpackSign, toNat_unpackExponent, toNat_unpackMantissa]
  omega

/-- Of the words that are no numbers, only the quiet one is the word of a double. -/
theorem pack_unpack_eq_self {b : BitVec Format.binary64.numBits}
    (h : Format.binary64.Valid b) : pack .binary64 (unpack .binary64 b) = b := by
  by_cases hnumber : (unpackExponent b).toNat = 2047 → (unpackMantissa b).toNat = 0
  · rw [unpack_eq_ofFields, pack_ofFields (unpackExponent b).isLt (unpackMantissa b).isLt hnumber,
      BitVec.ofNat_toNat, BitVec.ofNat_toNat, BitVec.setWidth_eq, BitVec.setWidth_eq,
      packComponents_unpack]
  · obtain ⟨htop, hfraction⟩ := Classical.not_imp.mp hnumber
    rw [h.eq_packedNaN (BitVec.eq_of_toNat_eq htop)
      fun hzero => hfraction (congrArg BitVec.toNat hzero)]
    rfl

theorem eq_of_toBits {x y : Float} (h : x.toBits = y.toBits) : x = y := by
  obtain ⟨⟨v, hv⟩⟩ := x
  obtain ⟨⟨w, hw⟩⟩ := y
  obtain rfl : v = w := h
  rfl

/-- A double is given by its word. -/
theorem ofBits_toNat_toBits (x : Float) : Float.ofBits (UInt64.ofNat x.toBits.toNat) = x := by
  rw [UInt64.ofNat_toNat]
  exact eq_of_toBits (congrArg UInt64.ofBitVec (pack_unpack_eq_self x.toModel.valid))

/-! ## Subtracting from zero -/

theorem zero_sub {u : UnpackedFloat} (h : ∀ s, u ≠ .zero s) :
    sub .binary64 (.zero .positive) u = u.neg := by
  cases u with
  | zero s => exact absurd rfl (h s)
  | infinity s | notANumber | finite s m e hm => rfl

/-- A double that is not zero is negated by subtracting it from zero. -/
theorem zero_sub_eq_neg {x : Float} (h : ∀ s, unpacked x ≠ .zero s) : 0 - x = -x := by
  have hsub : 0 - x = .ofModel (.pack (sub .binary64 (.zero .positive) (unpacked x))) := rfl
  rw [hsub, zero_sub h]
  rfl

theorem unpacked_zero_sub {x : Float} {s : Sign} {m : Nat} {e : Int} {h : 0 < m}
    (hx : unpacked x = .finite s m e h) : unpacked (0 - x) = .finite (-s) m e h := by
  obtain ⟨t, exponent, fraction, hexp, hfrac, hfields⟩ := exists_fields x
  have hsub : 0 - x = .ofModel (.pack (sub .binary64 (.zero .positive) (unpacked x))) := rfl
  have hnonzero : ∀ t, unpacked x ≠ .zero t := by
    intro t ht
    rw [hx] at ht
    cases ht
  have hneg : sub .binary64 (.zero .positive) (unpacked x) = ofFields (-t) exponent fraction := by
    rw [zero_sub hnonzero, hfields, neg_ofFields]
  rw [hsub, hneg, unpacked_pack hexp hfrac, ← neg_ofFields, ← hfields, hx]
  rfl

end PocketCalc.Binary64
