import PocketCalc.Binary64
import PocketCalc.Proofs.Binary64.Fields
import PocketCalc.Proofs.Rational.Rounding

/-!
# The value of the nearest double

Below infinity, the double nearest to a positive rational has the value that `halfEven` gives on
the grid of the spacing (`value?_nearest`). So it is half a unit of that grid away at most, which
for a normal double is the 53rd binary digit of the rational itself (`nearest_close`).
-/

namespace PocketCalc.Binary64

open Rational
open Float.Model.UnpackedFloat

/-! ## Words -/

theorem value?_of_unpacked {x : Float} {m : Nat} {e : Int} {h : 0 < m}
    (hx : unpacked x = .finite .positive m e h) : value? x = some (scaled m e) := by
  unfold value?
  rw [hx]

/-- What has a value is a zero, or a significand and an exponent with a sign. -/
theorem value?_cases {x : Float} {v : Rat} (hx : value? x = some v) :
    (∃ s, unpacked x = .zero s ∧ v = 0) ∨
      ∃ m e h, unpacked x = .finite .positive m e h ∧ v = scaled m e ∨
        unpacked x = .finite .negative m e h ∧ v = -scaled m e := by
  unfold value? at hx
  cases hu : unpacked x with
  | notANumber | infinity s =>
    rw [hu] at hx
    cases hx
  | zero s =>
    rw [hu] at hx
    cases hx
    exact .inl ⟨s, rfl, rfl⟩
  | finite s m e h =>
    rw [hu] at hx
    cases s with
    | positive =>
      cases hx
      exact .inr ⟨m, e, h, .inl ⟨rfl, rfl⟩⟩
    | negative =>
      cases hx
      exact .inr ⟨m, e, h, .inr ⟨rfl, rfl⟩⟩

/-- A normal double by its significand. `a` counts binades from the least one. -/
theorem ofFields_normal {a k : Nat} (hlow : 2 ^ 52 ≤ k) (ha : a < 2046) :
    ofFields .positive (a + 1) (k - 2 ^ 52) = .finite .positive k (a - 1074) (by omega) := by
  rw [(HasFields.normal (by omega) (by omega)).eq]
  exact finite_congr (by omega) (by omega)

theorem value?_ofBits_subnormal {k : Nat} (hk : k < 2 ^ 52) :
    value? (Float.ofBits (UInt64.ofNat k)) = some (scaled k (-1074)) := by
  have hexp : k / 2 ^ 52 = 0 := by omega
  have hfrac : k % 2 ^ 52 = k := by omega
  rcases Nat.eq_zero_or_pos k with rfl | hk
  · decide +kernel
  · apply value?_of_unpacked
    rw [unpacked_ofBits (by omega), hexp, hfrac, (HasFields.subnormal hk).eq]

theorem value?_ofBits_normal {a k : Nat} (hlow : 2 ^ 52 ≤ k) (hhigh : k < 2 ^ 53) (ha : a < 2046) :
    value? (Float.ofBits (UInt64.ofNat (a * 2 ^ 52 + k))) = some (scaled k (a - 1074)) := by
  have hexp : (a * 2 ^ 52 + k) / 2 ^ 52 = a + 1 := by omega
  have hfrac : (a * 2 ^ 52 + k) % 2 ^ 52 = k - 2 ^ 52 := by omega
  apply value?_of_unpacked
  rw [unpacked_ofBits (by omega), hexp, hfrac, ofFields_normal hlow ha]

/-- A word is a number of binades and a significand. A significand of the next power of two is
carried into the exponent field and keeps its value. -/
theorem value?_ofBits {a k : Nat} (hk : k ≤ 2 ^ 53) (hlead : a = 0 ∨ 2 ^ 52 ≤ k)
    (hfinite : a * binadeSize + k < infinityWord) :
    value? (Float.ofBits (UInt64.ofNat (a * binadeSize + k))) = some (scaled k (a - 1074)) := by
  have hsize : binadeSize = 2 ^ 52 := rfl
  have hinf : infinityWord = 2047 * 2 ^ 52 := rfl
  rw [hsize] at hfinite ⊢
  rw [hinf] at hfinite
  by_cases hsub : k < 2 ^ 52
  · have ha : a = 0 := by omega
    rw [ha, Nat.zero_mul, Nat.zero_add]
    exact value?_ofBits_subnormal hsub
  · by_cases hcarry : k = 2 ^ 53
    · have hword : a * 2 ^ 52 + k = (a + 1) * 2 ^ 52 + 2 ^ 52 := by omega
      rw [hword, value?_ofBits_normal (Nat.le_refl _) (by omega) (by omega), hcarry]
      have hshift : ((a + 1 : Nat) : Int) - 1074 = (a - 1074) + 1 := by omega
      simp only [scaled, hshift]
      rw [Rat.zpow_add_one (by decide)]
      push_cast
      ring_nf
    · exact value?_ofBits_normal (by omega) (by omega) (by omega)

/-! ## Rounding to the grid -/

variable {x : Rat}

theorem least_le_spacing (x : Rat) : -1074 ≤ spacing x := Int.le_max_left _ _

theorem magnitude_le_spacing (x : Rat) : magnitude 2 x ≤ spacing x + 52 := by
  have := Int.le_max_right (-1074) (magnitude 2 x - 52)
  unfold spacing
  omega

/-- Above the least spacing the doubles have 53 binary digits. -/
theorem spacing_of_normal (h : -1074 < spacing x ∨ -1022 ≤ magnitude 2 x) :
    magnitude 2 x = spacing x + 52 := by
  unfold spacing at h ⊢
  omega

/-- The quotient that is rounded has at most 53 binary digits. -/
theorem div_spacing_lt (hx : 0 < x) : x / 2 ^ spacing x < 2 ^ 53 := by
  have hlt := lt_zpow_magnitude_add_one (b := 2) (Nat.le_refl _) hx
  have hspacing : magnitude 2 x + 1 ≤ 53 + spacing x := by
    have := magnitude_le_spacing x
    omega
  rw [div_lt_iff₀ (by positivity)]
  calc x < 2 ^ (magnitude 2 x + 1) := hlt
    _ ≤ 2 ^ (53 + spacing x) := zpow_le_zpow_right₀ (by norm_num) hspacing
    _ = 2 ^ 53 * 2 ^ spacing x := by rw [zpow_add₀ (by norm_num)]; norm_num

/-- Above the least spacing it has no fewer. -/
theorem le_div_spacing (hx : 0 < x) (h : -1074 < spacing x) : 2 ^ 52 ≤ x / 2 ^ spacing x := by
  have hle := zpow_magnitude_le (b := 2) (Nat.le_refl _) hx
  rw [le_div_iff₀ (by positivity)]
  calc (2 : Rat) ^ 52 * 2 ^ spacing x = 2 ^ (spacing x + 52) := by
        rw [zpow_add₀ (by norm_num), mul_comm]; norm_num
    _ = 2 ^ magnitude 2 x := by rw [spacing_of_normal (.inl h)]
    _ ≤ x := hle

/-- The rounded quotient is the significand: it has at most 53 binary digits, or is the next power of
two, and above the least spacing it has no fewer. -/
theorem exists_significand (hx : 0 < x) : ∃ k : Nat,
    halfEven (x / 2 ^ spacing x) = k ∧ k ≤ 2 ^ 53 ∧ (spacing x = -1074 ∨ 2 ^ 52 ≤ k) ∧
      nearestWord x = min infinityWord ((spacing x + 1074).toNat * binadeSize + k) := by
  have hlow := least_le_spacing x
  have hquot : ((0 : Int) : Rat) ≤ x / 2 ^ spacing x := by
    push_cast
    positivity
  obtain ⟨k, hk⟩ := Int.eq_ofNat_of_zero_le (le_halfEven hquot)
  refine ⟨k, hk, ?_, ?_, ?_⟩
  · have := halfEven_le (k := 2 ^ 53) (by exact_mod_cast (div_spacing_lt hx).le)
    rw [hk] at this
    exact_mod_cast this
  · by_cases hmin : -1074 < spacing x
    · have := le_halfEven (k := 2 ^ 52) (by exact_mod_cast le_div_spacing hx hmin)
      rw [hk] at this
      exact .inr (by exact_mod_cast this)
    · exact .inl (by omega)
  · unfold nearestWord
    rw [if_neg (not_le.mpr hx)]
    simp only [hk, Int.toNat_natCast]

/-- The value of the nearest double, where it is finite. -/
theorem value?_nearest (hx : 0 < x) (hfinite : nearestWord x < infinityWord) :
    value? (nearest x) = some ((halfEven (x / 2 ^ spacing x) : Rat) * 2 ^ spacing x) := by
  -- the word is a number of binades and the rounded quotient, which may fill the last of them
  have hlow := least_le_spacing x
  obtain ⟨a, ha⟩ := Int.eq_ofNat_of_zero_le (by omega : 0 ≤ spacing x + 1074)
  obtain ⟨k, hk, hkle, hlead, hword⟩ := exists_significand hx
  rw [ha, Int.toNat_natCast] at hword
  have hlt : a * binadeSize + k < infinityWord := by omega
  have heq : nearestWord x = a * binadeSize + k := by omega
  unfold nearest
  rw [heq, value?_ofBits hkle (by omega) hlt, hk, scaled]
  have hexp : (a : Int) - 1074 = spacing x := by omega
  rw [hexp]
  rfl

/-! ## The error of rounding -/

/-- A binade below infinity is enough for a finite result. -/
theorem nearestWord_lt_infinityWord (hx : 0 < x) (h : magnitude 2 x ≤ 1022) :
    nearestWord x < infinityWord := by
  have hsize : binadeSize = 2 ^ 52 := rfl
  have hinf : infinityWord = 2047 * 2 ^ 52 := rfl
  obtain ⟨k, -, hkle, -, hword⟩ := exists_significand hx
  have hexp : (spacing x + 1074).toNat ≤ 2044 := by
    unfold spacing
    omega
  rw [hword, hsize, hinf]
  omega

/-- Rounding a rational in the range of the normal doubles moves it by `2 ^ (-53)` of itself at
most. -/
theorem nearest_close (hx : 0 < x) (hlow : -1022 ≤ magnitude 2 x) (hhigh : magnitude 2 x ≤ 1022) :
    ∃ w, value? (nearest x) = some w ∧ |w - x| ≤ x / 2 ^ 53 := by
  refine ⟨_, value?_nearest hx (nearestWord_lt_infinityWord hx hhigh), ?_⟩
  have hspacing := spacing_of_normal (.inr hlow)
  have hunit : (2 : Rat) ^ spacing x * 2 ^ 52 ≤ x := by
    have hle : (2 : Rat) ^ magnitude 2 x ≤ x := zpow_magnitude_le (Nat.le_refl _) hx
    rw [hspacing, Rat.zpow_add (by decide)] at hle
    exact_mod_cast hle
  have hpos : (0 : Rat) < 2 ^ spacing x := by positivity
  have hquot : x / 2 ^ spacing x * 2 ^ spacing x = x := div_mul_cancel₀ x hpos.ne'
  have hbelow := mul_le_mul_of_nonneg_right (le_halfEven_add_half (x / 2 ^ spacing x)) hpos.le
  have habove := mul_le_mul_of_nonneg_right (halfEven_sub_half_le (x / 2 ^ spacing x)) hpos.le
  rw [hquot] at hbelow habove
  rw [abs_le]
  constructor <;> linarith

end PocketCalc.Binary64
