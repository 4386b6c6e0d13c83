import PocketCalc.Proofs.Decimal.Display
import PocketCalc.Proofs.Decimal.SignificantDigits

/-!
# What general notation prints

What is printed is a sign, digits, digits behind a point and a power of ten, with nothing
superfluous (`Written.IsGeneral`). The text of a double is of this form, for every precision, and
denotes exactly the value that the double is rounded to (`general_isGeneral`).
-/

namespace PocketCalc.Decimal

open Binary64 Rational
open Float.Model.UnpackedFloat

/-! ## Written numbers -/

/-- A number as it is written: a sign, the digits before the point, the digits behind it, and the
sign and the digits of a power of ten, if there is one. -/
structure Written where
  sign : Sign
  whole : List Char
  fraction : List Char
  power : Option (Sign × List Char)

namespace Written

/-- The text of a power of ten. -/
def powerText : Option (Sign × List Char) → List Char
  | none => []
  | some (.positive, ds) => 'e' :: '+' :: ds
  | some (.negative, ds) => 'e' :: '-' :: ds

/-- The text of a written number. A point is written only before digits. -/
def text (w : Written) : List Char :=
  signed w.sign
    (w.whole ++ (if w.fraction = [] then [] else '.' :: w.fraction) ++ powerText w.power)

/-- The exponent of a power of ten. -/
def exponent : Option (Sign × List Char) → Int
  | none => 0
  | some (.positive, ds) => Nat.ofDigitChars 10 ds 0
  | some (.negative, ds) => -Nat.ofDigitChars 10 ds 0

/-- The rational that a written number denotes. -/
def value (w : Written) : Rat :=
  withSign w.sign
    (Nat.ofDigitChars 10 (w.whole ++ w.fraction) 0 * 10 ^ (exponent w.power - w.fraction.length))

/-- A number with `p` significant digits and decimal exponent `X` in general notation. -/
structure IsGeneral (p : Nat) (X : Int) (w : Written) : Prop where
  isDigit : ∀ c ∈ w.whole ++ w.fraction, c.isDigit
  /-- No zero at the end behind the point. -/
  fraction_last : w.fraction.getLast? ≠ some '0'
  /-- A power of ten is written if the number is too small or too great without it. -/
  power_iff : w.power ≠ none ↔ X < -4 ∨ (p : Int) ≤ X
  /-- With a power of ten, one digit stands before the point, and it is no zero; the power is the
  decimal exponent, with two digits at least and no more than needed. -/
  scientific : ∀ s ds, w.power = some (s, ds) → exponent w.power = X ∧
    (∃ c, w.whole = [c] ∧ c ≠ '0') ∧ (∀ c ∈ ds, c.isDigit) ∧ 2 ≤ ds.length ∧
    (2 < ds.length → ds.head? ≠ some '0') ∧ (s = .negative ↔ X < 0)
  /-- Without one there is at least one digit before the point, a zero only if it stands alone. -/
  positional : w.power = none → w.whole = ['0'] ∨ ∃ c, w.whole.head? = some c ∧ c ≠ '0'

end Written

/-! ## The two notations of a decimal -/

theorem head?_toDigits_ne_zero {n : Nat} (h : 0 < n) :
    ∃ c, (Nat.toDigits 10 n).head? = some c ∧ c ≠ '0' := by
  induction n using Nat.strongRecOn with
  | ind n ih =>
    by_cases hten : n < 10
    · refine ⟨n.digitChar, by rw [Nat.toDigits_of_lt_base hten]; rfl, ?_⟩
      rw [← Nat.mod_eq_of_lt hten]
      exact digitChar_ne_zero (by omega)
    · obtain ⟨c, hc, hzero⟩ := ih (n / 10) (by omega) (by omega)
      refine ⟨c, ?_, hzero⟩
      rw [Nat.toDigits_of_base_le (by decide) (by omega), List.head?_append, hc]
      rfl

/-- A power of ten of more than two digits has no zero in front. -/
theorem head?_padded_one {n : Nat} (h : 2 < (padded n 1).length) :
    (padded n 1).head? ≠ some '0' := by
  have hlength : 2 < (Nat.toDigits 10 n).length := by
    rw [padded, List.length_leftpad] at h
    omega
  have hpos : 0 < n := by
    rw [Nat.pos_iff_ne_zero]
    rintro rfl
    simp at hlength
  obtain ⟨c, hc, hzero⟩ := head?_toDigits_ne_zero hpos
  rw [padded_of_lt (by omega), hc]
  exact fun heq => hzero (Option.some.inj heq)

/-- Positional notation, taken apart. -/
def positionalForm (s : Sign) (d : Decimal) : Written :=
  if 0 ≤ d.exponent then ⟨s, d.digits ++ List.replicate d.exponent.toNat '0', [], none⟩
  else
    let places := (-d.exponent).toNat
    let ds := padded d.coefficient places
    ⟨s, ds.take (ds.length - places), ds.drop (ds.length - places), none⟩

/-- Scientific notation, taken apart. -/
def scientificForm (s : Sign) (d : Decimal) : Written :=
  ⟨s, d.digits.take 1, d.digits.drop 1,
    some (if d.leading < 0 then .negative else .positive, padded d.leading.natAbs 1)⟩

section Forms

variable (s : Sign) {d : Decimal}

theorem positionalForm_of_nonneg (h : 0 ≤ d.exponent) : positionalForm s d =
    ⟨s, d.digits ++ List.replicate d.exponent.toNat '0', [], none⟩ := if_pos h

theorem positionalForm_of_places (c : Nat) {n : Nat} (hn : 0 < n) :
    positionalForm s ⟨c, -n⟩ = ⟨s, (padded c n).take ((padded c n).length - n),
      (padded c n).drop ((padded c n).length - n), none⟩ := by
  have hneg : ¬ (0 : Int) ≤ -n := by omega
  have hplaces : (- -(n : Int)).toNat = n := by omega
  rw [positionalForm, if_neg hneg]
  simp only [hplaces]

theorem length_drop_padded (c n : Nat) :
    ((padded c n).drop ((padded c n).length - n)).length = n := by
  have := lt_length_padded c n
  rw [List.length_drop]
  omega

theorem text_positionalForm : (positionalForm s d).text = signed s d.fixed := by
  by_cases hexp : 0 ≤ d.exponent
  · rw [positionalForm_of_nonneg s hexp, fixed_of_nonneg hexp]
    simp [Written.text, Written.powerText]
  · obtain ⟨n, hn, hd⟩ := exists_places hexp
    have hne : (padded d.coefficient n).drop ((padded d.coefficient n).length - n) ≠ [] := by
      rw [← List.length_pos_iff, length_drop_padded]
      exact hn
    rw [hd, positionalForm_of_places s _ hn, fixed_of_places _ hn]
    simp only [Written.text, Written.powerText, if_neg hne, List.append_nil]

theorem text_scientificForm : (scientificForm s d).text = signed s d.scientific := by
  have hpower : Written.powerText (scientificForm s d).power = 'e' :: exponentText d.leading := by
    by_cases hneg : d.leading < 0
    · simp [scientificForm, Written.powerText, exponentText, padded, hneg]
    · simp [scientificForm, Written.powerText, exponentText, padded, hneg]
  have hfraction : d.digits.drop 1 = [] ↔ d.digits.length ≤ 1 := List.drop_eq_nil_iff
  rw [Written.text, hpower]
  simp only [scientificForm, scientific, hfraction]

theorem value_positionalForm : (positionalForm s d).value = withSign s d.value := by
  by_cases hexp : 0 ≤ d.exponent
  · obtain ⟨n, hn⟩ := Int.eq_ofNat_of_zero_le hexp
    have hdigits : Nat.ofDigitChars 10 (d.digits ++ List.replicate n '0') 0 =
        10 ^ n * d.coefficient := by
      rw [Nat.ofDigitChars_append, ofDigitChars_digits, Nat.ofDigitChars_replicate_zero]
    rw [positionalForm_of_nonneg s hexp, Written.value, value, hn]
    simp only [Int.toNat_natCast, List.append_nil, hdigits, Written.exponent, List.length_nil]
    congr 1
    push_cast
    rw [Rat.zpow_natCast]
    ring
  · obtain ⟨n, hn, hd⟩ := exists_places hexp
    rw [hd, positionalForm_of_places s _ hn, Written.value, value]
    simp only [List.take_append_drop, length_drop_padded, Written.exponent, ofDigitChars_padded,
      Int.zero_sub]

theorem exponent_scientificForm : Written.exponent (scientificForm s d).power = d.leading := by
  by_cases hneg : d.leading < 0
  · simp only [scientificForm, if_pos hneg, Written.exponent, ofDigitChars_padded]
    omega
  · simp only [scientificForm, if_neg hneg, Written.exponent, ofDigitChars_padded]
    omega

theorem value_scientificForm : (scientificForm s d).value = withSign s d.value := by
  have hpos : 0 < d.digits.length := Nat.length_toDigits_pos
  have hcount : d.leading = d.digits.length - 1 + d.exponent := rfl
  have hplaces : d.leading - (d.digits.drop 1).length = d.exponent := by
    rw [hcount, List.length_drop]
    omega
  rw [Written.value, exponent_scientificForm]
  simp only [scientificForm, List.take_append_drop, ofDigitChars_digits, hplaces]
  rfl

/-- A digit that is no zero stands in front, or one zero stands alone before the point. -/
theorem whole_positionalForm (h : 0 < d.coefficient) : (positionalForm s d).whole = ['0'] ∨
    ∃ c, (positionalForm s d).whole.head? = some c ∧ c ≠ '0' := by
  obtain ⟨c, hc, hzero⟩ := head?_toDigits_ne_zero h
  by_cases hexp : 0 ≤ d.exponent
  · rw [positionalForm_of_nonneg s hexp]
    refine .inr ⟨c, ?_, hzero⟩
    simp only [List.head?_append, digits, hc]
    rfl
  · obtain ⟨n, hn, hd⟩ := exists_places hexp
    rw [hd, positionalForm_of_places s _ hn]
    by_cases hlength : (Nat.toDigits 10 d.coefficient).length ≤ n
    · -- all digits stand behind the point
      have hpad : n + 1 - (Nat.toDigits 10 d.coefficient).length =
          n - (Nat.toDigits 10 d.coefficient).length + 1 := by omega
      have hone : (padded d.coefficient n).length - n = 1 := by
        rw [padded, List.length_leftpad]
        omega
      rw [hone, padded, List.leftpad, hpad, List.replicate_succ]
      exact .inl rfl
    · refine .inr ⟨c, ?_, hzero⟩
      rw [padded_of_lt (by omega), List.head?_take, if_neg (by omega), hc]

theorem fraction_last_positionalForm (h : d.coefficient % 10 ≠ 0) :
    (positionalForm s d).fraction.getLast? ≠ some '0' := by
  by_cases hexp : 0 ≤ d.exponent
  · rw [positionalForm_of_nonneg s hexp]
    simp
  · obtain ⟨n, hn, hd⟩ := exists_places hexp
    obtain ⟨front, hfront⟩ := exists_padded_concat d.coefficient n
    have hlength := lt_length_padded d.coefficient n
    rw [hd, positionalForm_of_places s _ hn, List.getLast?_drop, if_neg (by omega), hfront,
      List.getLast?_concat]
    exact fun heq => digitChar_ne_zero h (Option.some.inj heq)

theorem isDigit_of_mem_positionalForm {c : Char}
    (h : c ∈ (positionalForm s d).whole ++ (positionalForm s d).fraction) : c.isDigit := by
  by_cases hexp : 0 ≤ d.exponent
  · rw [positionalForm_of_nonneg s hexp, List.append_nil, List.mem_append] at h
    rcases h with h | h
    · exact d.isDigit_of_mem_digits h
    · rw [List.eq_of_mem_replicate h]
      decide
  · obtain ⟨n, hn, hd⟩ := exists_places hexp
    rw [hd, positionalForm_of_places s _ hn, List.take_append_drop] at h
    exact isDigit_of_mem_padded h

theorem isGeneral_positionalForm {p : Nat} (h : d.coefficient % 10 ≠ 0)
    (hform : isScientific p d = false) : (positionalForm s d).IsGeneral p d.leading := by
  have hpower : (positionalForm s d).power = none := by
    unfold positionalForm
    split <;> rfl
  simp only [isScientific, Bool.or_eq_false_iff, decide_eq_false_iff_not] at hform
  exact {
    isDigit := fun c hc => isDigit_of_mem_positionalForm s hc
    fraction_last := fraction_last_positionalForm s h
    power_iff := by simp [hpower, hform.1, hform.2]
    scientific := by simp [hpower]
    positional := fun _ => whole_positionalForm s (by omega) }

theorem getLast?_digits (d : Decimal) :
    d.digits.getLast? = some (d.coefficient % 10).digitChar := by
  obtain ⟨front, hfront⟩ := exists_toDigits_concat d.coefficient
  rw [digits, hfront, List.getLast?_concat]

theorem isGeneral_scientificForm {p : Nat} (h : d.coefficient % 10 ≠ 0)
    (hform : isScientific p d = true) : (scientificForm s d).IsGeneral p d.leading := by
  obtain ⟨c, hc, hzero⟩ := head?_toDigits_ne_zero (by omega : 0 < d.coefficient)
  obtain ⟨rest, hrest⟩ : ∃ rest, d.digits = c :: rest := List.head?_eq_some_iff.mp hc
  simp only [isScientific, Bool.or_eq_true, decide_eq_true_eq] at hform
  exact {
    isDigit := by
      intro x hx
      rw [scientificForm, List.take_append_drop] at hx
      exact d.isDigit_of_mem_digits hx
    fraction_last := by
      have hlast := d.getLast?_digits
      rw [scientificForm, List.getLast?_drop]
      split
      · simp
      · rw [hlast]
        exact fun heq => digitChar_ne_zero h (Option.some.inj heq)
    power_iff := by simp [scientificForm, hform]
    scientific := by
      intro t ds hpower
      have hexponent := exponent_scientificForm s (d := d)
      cases hpower
      refine ⟨hexponent, ⟨c, by rw [scientificForm, hrest]; rfl, hzero⟩,
        fun x hx => isDigit_of_mem_padded hx, lt_length_padded _ 1, ?_, ?_⟩
      · exact head?_padded_one
      · by_cases hneg : d.leading < 0 <;> simp [hneg]
    positional := by simp [scientificForm] }

end Forms

/-! ## The text of a double -/

theorem exists_unpacked_of_ne_zero {x : Float} {v : Rat} (hx : value? x = some v) (hv : v ≠ 0) :
    ∃ s m e h, unpacked x = .finite s m e h ∧ v = withSign s (scaled m e) := by
  rcases value?_cases hx with ⟨s, -, rfl⟩ | ⟨m, e, h, ⟨hu, rfl⟩ | ⟨hu, rfl⟩⟩
  · exact absurd rfl hv
  · exact ⟨.positive, m, e, h, hu, rfl⟩
  · exact ⟨.negative, m, e, h, hu, rfl⟩

/-- A decimal without a zero at its end is written in one of the two notations. -/
theorem exists_written {p : Nat} {d : Decimal} (h : d.coefficient % 10 ≠ 0) (s : Sign) :
    ∃ w : Written, w.text = signed s (generalText p d) ∧ w.value = withSign s d.value ∧
      w.sign = s ∧ w.IsGeneral p d.leading := by
  by_cases hform : isScientific p d = true
  · refine ⟨scientificForm s d, ?_, value_scientificForm s, rfl, isGeneral_scientificForm s h hform⟩
    rw [text_scientificForm, generalText, if_pos hform]
  · have hsign : (positionalForm s d).sign = s := by
      unfold positionalForm
      split <;> rfl
    refine ⟨positionalForm s d, ?_, value_positionalForm s, hsign,
      isGeneral_positionalForm s h (Bool.eq_false_iff.mpr hform)⟩
    rw [text_positionalForm, generalText, if_neg hform]

/-- **General notation.** The text of a finite double that is not zero denotes its exact value
rounded to the significant digits asked for, half to even; it has a power of ten exactly if the
decimal exponent of the rounded value is below `-4` or not below the number of digits; and nothing
in it is superfluous. -/
theorem general_isGeneral (precision : Nat) {x : Float} {v : Rat} (hx : value? x = some v)
    (hv : v ≠ 0) :
    ∃ (q : Rat) (X : Int) (w : Written),
      RoundsTo (max precision 1) v q ∧ (∀ r, RoundsTo (max precision 1) v r → r = q) ∧
      10 ^ X ≤ |q| ∧ |q| < 10 ^ (X + 1) ∧
      general precision x = String.ofList w.text ∧ w.value = q ∧
      w.IsGeneral (max precision 1) X ∧ (w.sign = .negative ↔ v < 0) := by
  obtain ⟨s, m, e, h, hunpacked, rfl⟩ := exists_unpacked_of_ne_zero hx hv
  have hp : 1 ≤ max precision 1 := Nat.le_max_right _ _
  have hpos := scaled_pos h e
  have htext : general precision x = general (max precision 1) x := by
    unfold general
    rw [Nat.max_eq_left hp]
  have hround := roundsTo_withSign (p := max precision 1) hpos s
  have hlast := (coefficient_reduced_rounded hp hpos).1
  rw [general_of_unpacked hunpacked hp] at htext
  rw [← value_reduced] at hround
  -- from here on only the reduced decimal counts
  generalize (rounded (max precision 1) (scaled m e)).reduced = d at htext hround hlast
  have hvalue := value_pos hlast
  have hleading := leading_eq_magnitude (by omega : 0 < d.coefficient)
  obtain ⟨w, hw, hwvalue, hsign, hgeneral⟩ := exists_written (p := max precision 1) hlast s
  refine ⟨withSign s d.value, d.leading, w, hround, fun r hr => hround.unique hv hr, ?_, ?_,
    by rw [htext, hw], hwvalue, hgeneral, by rw [hsign, withSign_neg_iff s hpos]⟩
  · rw [abs_withSign s hvalue, hleading]
    exact_mod_cast zpow_magnitude_le (b := 10) (by norm_num) hvalue
  · rw [abs_withSign s hvalue, hleading]
    exact_mod_cast lt_zpow_magnitude_add_one (b := 10) (by norm_num) hvalue

/-- Half a unit below a million: the tie goes to the million, which six digits do not show. -/
theorem general_isGeneral_half_below_million :
    value? 999999.5 = some (1999999 / 2) ∧ (1999999 / 2 : Rat) ≠ 0 ∧
      ∃ w : Written, general 6 999999.5 = String.ofList w.text ∧ w.value = 1000000 ∧
        w.IsGeneral 6 6 ∧ w.sign ≠ .negative := by
  have hvalue : value? 999999.5 = some (1999999 / 2) := by decide +kernel
  have hne : (1999999 / 2 : Rat) ≠ 0 := by norm_num
  have hround : RoundsTo 6 (1999999 / 2) 1000000 := by
    refine ⟨0, 1000000, ?_, ?_, ?_, ?_, fun _ => by norm_num⟩
    all_goals norm_num [abs_of_pos, abs_of_neg]
  obtain ⟨q, X, w, -, hunique, hlow, hhigh, htext, hq, hform, hsign⟩ :=
    general_isGeneral 6 hvalue hne
  have hmillion : (1000000 : Rat) = q := hunique _ hround
  have hsix : X = 6 := by
    have hpow : |q| = 10 ^ (6 : Int) := by
      rw [← hmillion]
      norm_num
    rw [hpow] at hlow hhigh
    have hle := (zpow_le_zpow_iff_right₀ (by norm_num)).mp hlow
    have hlt := (zpow_lt_zpow_iff_right₀ (by norm_num)).mp hhigh
    omega
  subst hsix
  refine ⟨hvalue, hne, w, htext, hq.trans hmillion.symm, hform, ?_⟩
  rw [ne_eq, hsign]
  norm_num

/-! The notation is chosen after rounding, at both of its bounds. -/

example : display 999999.5 = "1e+06" := by decide +kernel

example : display (-0.00009999999) = "-0.0001" := by decide +kernel

example : general 2 0.00001 = "1e-05" := by decide +kernel

end PocketCalc.Decimal
