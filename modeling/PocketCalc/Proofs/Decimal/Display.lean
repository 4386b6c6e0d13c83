import PocketCalc.Proofs.Binary64.Nearest
import PocketCalc.Proofs.Decimal.TwoRoundings

/-!
# Displayed numbers that are read back

Positional notation of at most fifteen digits survives reading: the double that is read has the same
text (`general_readSigned`). The numbers written in this notation are normal doubles, so reading
moves them by less than the digits show.
-/

namespace PocketCalc.Decimal

open Binary64 Rational
open Float.Model.UnpackedFloat

/-! ## The text of a double -/

theorem scaled_pos {m : Nat} (h : 0 < m) (e : Int) : 0 < scaled m e := by
  have : (0 : Rat) < m := by exact_mod_cast h
  unfold scaled
  positivity

theorem general_of_unpacked {x : Float} {s : Sign} {m : Nat} {e : Int} {h : 0 < m}
    (hx : unpacked x = .finite s m e h) {p : Nat} (hp : 1 ≤ p) :
    general p x = String.ofList (signed s (generalText p (rounded p (scaled m e)).reduced)) := by
  have hmax : max p 1 = p := Nat.max_eq_left hp
  unfold general
  rw [hx, hmax, ← unsignedText_eq hp (scaled_pos h e)]

theorem exists_unpacked_of_pos {x : Float} {v : Rat} (hx : value? x = some v) (hv : 0 < v) :
    ∃ m e h, unpacked x = .finite .positive m e h ∧ scaled m e = v := by
  rcases value?_cases hx with ⟨s, -, rfl⟩ | ⟨m, e, h, ⟨hu, rfl⟩ | ⟨-, rfl⟩⟩
  · exact absurd hv (lt_irrefl 0)
  · exact ⟨m, e, h, hu, rfl⟩
  · have := scaled_pos h e
    linarith

/-- What is displayed of a double that is not finite is no number. -/
theorem general_of_not_finite {x : Float} (hx : value? x = none) (p : Nat) :
    general p x = "nan" ∨ ∃ s, general p x = String.ofList (signed s "inf".toList) := by
  unfold value? at hx
  unfold general
  cases hu : unpacked x with
  | notANumber => exact .inl rfl
  | infinity s => exact .inr ⟨s, rfl⟩
  | zero s =>
    rw [hu] at hx
    cases hx
  | finite s m e h =>
    rw [hu] at hx
    cases s <;> cases hx

/-- What is displayed of a finite double: zero, or a sign and at most `p` digits, the last of them
no zero. -/
theorem general_of_finite {x : Float} (hx : value? x ≠ none) {p : Nat} (hp : 1 ≤ p) :
    general p x = "0" ∨ ∃ s d, d.coefficient % 10 ≠ 0 ∧ d.coefficient < 10 ^ p ∧
      general p x = String.ofList (signed s (generalText p d)) := by
  cases hu : unpacked x with
  | notANumber | infinity s =>
    refine absurd ?_ hx
    unfold value?
    rw [hu]
  | zero s =>
    refine .inl ?_
    unfold general
    rw [hu]
  | finite s m e h =>
    have hbounds := coefficient_reduced_rounded hp (scaled_pos h e)
    refine .inr ⟨s, _, hbounds.1, hbounds.2, ?_⟩
    exact general_of_unpacked hu hp

/-- The mark of the exponent tells the notation. -/
theorem mem_generalText_iff (s : Sign) (p : Nat) (d : Decimal) :
    'e' ∈ signed s (generalText p d) ↔ isScientific p d = true := by
  have hsigned : ∀ text, 'e' ∈ signed s text ↔ 'e' ∈ text := by
    intro text
    cases s <;> simp [signed]
  rw [hsigned, generalText]
  by_cases h : isScientific p d = true
  · simp [h, scientific]
  · have hfixed : 'e' ∉ d.fixed := by
      intro hmem
      exact absurd (d.isNumeral_fixed.isNumeric 'e' hmem) (by decide)
    simp [h, hfixed]

/-! ## Reading the text -/

section

variable {p : Nat} {d : Decimal} (hp : 1 ≤ p) (hp' : p ≤ 15) (hd : d.coefficient % 10 ≠ 0)
  (hlt : d.coefficient < 10 ^ p) (hfixed : isScientific p d = false)

include hd

theorem value_pos : 0 < d.value := by
  have : (0 : Rat) < d.coefficient := by exact_mod_cast (by omega : 0 < d.coefficient)
  unfold value
  positivity

include hp' hfixed

/-- What is written in positional notation is a normal double. -/
theorem magnitude_two_bounds : -1022 ≤ magnitude 2 d.value ∧ magnitude 2 d.value ≤ 1022 := by
  have hpos := value_pos hd
  have hleading := leading_eq_magnitude (by omega : 0 < d.coefficient)
  simp only [isScientific, Bool.or_eq_false_iff, decide_eq_false_iff_not, not_lt, not_le] at hfixed
  have hlow : (10 : Rat) ^ (-4 : Int) ≤ d.value := by
    have := (le_magnitude_iff (b := 10) (by norm_num) hpos).mp (hleading ▸ hfixed.1)
    exact_mod_cast this
  have hhigh : ¬ (10 : Rat) ^ (15 : Int) ≤ d.value := by
    have hmag : ¬ 15 ≤ magnitude 10 d.value := by omega
    rw [le_magnitude_iff (by norm_num) hpos] at hmag
    exact_mod_cast hmag
  have hmin : -14 ≤ magnitude 2 d.value := by
    rw [le_magnitude_iff (by norm_num) hpos]
    have : (2 : Rat) ^ (-14 : Int) ≤ 10 ^ (-4 : Int) := by norm_num
    exact_mod_cast this.trans hlow
  have hmax : ¬ 50 ≤ magnitude 2 d.value := by
    rw [le_magnitude_iff (by norm_num) hpos]
    intro hle
    have : (10 : Rat) ^ (15 : Int) ≤ 2 ^ (50 : Int) := by norm_num
    exact hhigh (this.trans (by exact_mod_cast hle))
  omega

include hp hlt

/-- Reading positional notation of at most fifteen digits finds a double that is rounded to the
same digits. -/
theorem reduced_rounded_readNumeral : ∃ m e h,
    unpacked (readNumeral d.fixed) = .finite .positive m e h ∧
      (rounded p (scaled m e)).reduced = d := by
  have hpos := value_pos hd
  obtain ⟨hlow, hhigh⟩ := magnitude_two_bounds hp' hd hfixed
  obtain ⟨w, hw, hclose⟩ := nearest_close hpos hlow hhigh
  have hwpos : 0 < w := by
    have := (abs_le.mp hclose).1
    linarith
  have hread : readNumeral d.fixed = nearest d.value := by rw [readNumeral_eq, value_ofNumeral_fixed]
  obtain ⟨m, e, h, hunpacked, hscaled⟩ := exists_unpacked_of_pos hw hwpos
  refine ⟨m, e, h, hread ▸ hunpacked, ?_⟩
  rw [hscaled]
  exact reduced_rounded_of_close hp hp' hd hlt hclose

end

/-- The double that a number with a sign is read as: a negative one is subtracted from zero. -/
def readSigned : Sign → List Char → Float
  | .positive, run => readNumeral run
  | .negative, run => 0 - readNumeral run

/-- Reading positional notation of at most fifteen digits and writing it again changes nothing. -/
theorem general_readSigned {p : Nat} {d : Decimal} (hp : 1 ≤ p) (hp' : p ≤ 15)
    (hd : d.coefficient % 10 ≠ 0) (hlt : d.coefficient < 10 ^ p)
    (hfixed : isScientific p d = false) (s : Sign) :
    general p (readSigned s d.fixed) = String.ofList (signed s d.fixed) := by
  obtain ⟨m, e, h, hunpacked, hrounded⟩ := reduced_rounded_readNumeral hp hp' hd hlt hfixed
  have hsigned : unpacked (readSigned s d.fixed) = .finite s m e h := by
    cases s with
    | positive => exact hunpacked
    | negative => exact unpacked_zero_sub hunpacked
  rw [general_of_unpacked hsigned hp, hrounded]
  simp [generalText, hfixed]

end PocketCalc.Decimal
