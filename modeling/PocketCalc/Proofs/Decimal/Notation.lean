import Mathlib.Data.List.TakeWhile
import Mathlib.Tactic.Ring
import PocketCalc.Decimal.Numeral
import PocketCalc.Proofs.Token.Concatenation

/-!
# Reading the two notations

Positional notation is one numeral, which is read as a decimal of the same value
(`value_ofNumeral_fixed`). Scientific notation is no numeral: it has two of them, and the mark
between them starts a name (`exists_scientific`).
-/

namespace PocketCalc.Decimal

open Token (isNumeric IsNumeral)

/-! ## Numerals of digits -/

theorem isNumeric_of_isDigit {c : Char} (h : c.isDigit) : isNumeric c := by
  simp [isNumeric, h]

theorem ofNumeral_digits {whole : List Char} (h : ∀ c ∈ whole, c.isDigit) :
    ofNumeral whole = ⟨Nat.ofDigitChars 10 whole 0, 0⟩ := by
  have hwhole : wholeDigits whole = whole := List.takeWhile_eq_self_iff.mpr h
  have hfraction : fractionDigits whole = [] := by
    unfold fractionDigits
    rw [List.dropWhile_eq_nil_iff.mpr h]
  simp [ofNumeral, hwhole, hfraction]

theorem ofNumeral_point {whole fraction : List Char} (hwhole : ∀ c ∈ whole, c.isDigit)
    (hfraction : ∀ c ∈ fraction, c.isDigit) :
    ofNumeral (whole ++ '.' :: fraction) =
      ⟨Nat.ofDigitChars 10 (whole ++ fraction) 0, -fraction.length⟩ := by
  have hall : fraction.takeWhile Char.isDigit = fraction := List.takeWhile_eq_self_iff.mpr hfraction
  rw [ofNumeral, wholeDigits_point hwhole, fractionDigits_point hwhole, hall]

/-! ## Positional notation -/

variable (d : Decimal)

theorem isDigit_of_mem_digits {c : Char} (h : c ∈ d.digits) : c.isDigit :=
  Nat.isDigit_of_mem_toDigits (by decide) (by decide) h

theorem ofDigitChars_digits : Nat.ofDigitChars 10 d.digits 0 = d.coefficient :=
  Nat.ofDigitChars_ten_toDigits

/-- Zeros in front of digits are digits and do not count. -/
theorem isDigit_of_mem_leftpad {n : Nat} {c : Char} (h : c ∈ d.digits.leftpad n '0') :
    c.isDigit := by
  rw [List.leftpad, List.mem_append] at h
  rcases h with h | h
  · rw [List.eq_of_mem_replicate h]
    decide
  · exact d.isDigit_of_mem_digits h

theorem ofDigitChars_leftpad (n : Nat) :
    Nat.ofDigitChars 10 (d.digits.leftpad n '0') 0 = d.coefficient := by
  rw [List.leftpad, Nat.ofDigitChars_append, Nat.ofDigitChars_replicate_zero, Nat.mul_zero,
    ofDigitChars_digits]

/-- Below the units, positional notation has digits on both sides of a point. -/
theorem exists_fixed_of_neg (h : d.exponent < 0) : ∃ whole fraction,
    d.fixed = whole ++ '.' :: fraction ∧
      whole ++ fraction = d.digits.leftpad ((-d.exponent).toNat + 1) '0' ∧
      fraction.length = (-d.exponent).toNat := by
  refine ⟨_, _, by rw [fixed, if_neg (by omega)], List.take_append_drop _ _, ?_⟩
  rw [List.length_drop, List.length_leftpad]
  omega

/-- Reading positional notation gives its value back. -/
theorem value_ofNumeral_fixed : (ofNumeral d.fixed).value = d.value := by
  by_cases h : 0 ≤ d.exponent
  · have hdigits : ∀ c ∈ d.digits ++ List.replicate d.exponent.toNat '0', c.isDigit := by
      intro c hc
      rcases List.mem_append.mp hc with hc | hc
      · exact d.isDigit_of_mem_digits hc
      · rw [List.eq_of_mem_replicate hc]
        decide
    obtain ⟨n, hn⟩ := Int.eq_ofNat_of_zero_le h
    rw [fixed, if_pos h, ofNumeral_digits hdigits, Nat.ofDigitChars_append, ofDigitChars_digits,
      Nat.ofDigitChars_replicate_zero]
    simp only [value, hn, Int.toNat_natCast, Rat.zpow_natCast]
    push_cast
    ring
  · obtain ⟨whole, fraction, hfixed, hparts, hlength⟩ := d.exists_fixed_of_neg (by omega)
    have hdigits : ∀ c ∈ whole ++ fraction, c.isDigit := by
      intro c hc
      rw [hparts] at hc
      exact d.isDigit_of_mem_leftpad hc
    -- as many digits behind the point as the exponent is below zero
    have hexp : -((-d.exponent).toNat : Int) = d.exponent := by omega
    rw [hfixed, ofNumeral_point (fun c hc => hdigits c (List.mem_append_left _ hc))
      (fun c hc => hdigits c (List.mem_append_right _ hc)), hparts, ofDigitChars_leftpad, hlength]
    simp only [value, hexp]

/-- Positional notation is one numeral. -/
theorem isNumeral_fixed : IsNumeral d.fixed := by
  by_cases hexp : 0 ≤ d.exponent
  · rw [fixed, if_pos hexp]
    refine ⟨by simp [digits], ?_⟩
    intro c hc
    rcases List.mem_append.mp hc with hc | hc
    · exact isNumeric_of_isDigit (d.isDigit_of_mem_digits hc)
    · rw [List.eq_of_mem_replicate hc]
      decide
  · obtain ⟨whole, fraction, hfixed, hparts, -⟩ := d.exists_fixed_of_neg (by omega)
    have hdigits : ∀ c ∈ whole ++ fraction, isNumeric c := by
      intro c hc
      rw [hparts] at hc
      exact isNumeric_of_isDigit (d.isDigit_of_mem_leftpad hc)
    rw [hfixed]
    refine ⟨by simp, ?_⟩
    intro c hc
    rw [List.mem_append, List.mem_cons] at hc
    rcases hc with hc | rfl | hc
    · exact hdigits c (List.mem_append_left _ hc)
    · decide
    · exact hdigits c (List.mem_append_right _ hc)

/-! ## Scientific notation -/

/-- The exponent is written as a sign and a numeral. -/
theorem exists_exponentText (e : Int) : ∃ op exponent,
    exponentText e = Operator.symbol op :: exponent ∧ (op = .add ∨ op = .sub) ∧
      IsNumeral exponent := by
  have hnumeral : IsNumeral ((Nat.toDigits 10 e.natAbs).leftpad 2 '0') := by
    refine ⟨?_, fun c hc => isNumeric_of_isDigit (isDigit_of_mem_leftpad ⟨e.natAbs, 0⟩ hc)⟩
    intro hnil
    have hlength := congrArg List.length hnil
    rw [List.length_leftpad, List.length_nil] at hlength
    omega
  by_cases he : e < 0
  · exact ⟨.sub, _, by rw [exponentText, if_pos he]; rfl, .inr rfl, hnumeral⟩
  · exact ⟨.add, _, by rw [exponentText, if_neg he]; rfl, .inl rfl, hnumeral⟩

/-- Scientific notation is two numerals, between them the mark of the exponent and a sign. -/
theorem exists_scientific : ∃ mantissa op exponent,
    d.scientific = mantissa ++ 'e' :: Operator.symbol op :: exponent ∧ (op = .add ∨ op = .sub) ∧
      IsNumeral mantissa ∧ IsNumeral exponent := by
  obtain ⟨op, exponent, hexp, hop, hexponent⟩ := exists_exponentText d.leading
  refine ⟨_, op, exponent, by rw [scientific, hexp], hop, ⟨?_, ?_⟩, hexponent⟩
  · simp [digits]
  · intro c hc
    rcases List.mem_append.mp hc with hc | hc
    · exact isNumeric_of_isDigit (d.isDigit_of_mem_digits (List.mem_of_mem_take hc))
    · split at hc
      · cases hc
      · rcases List.mem_cons.mp hc with rfl | hc
        · decide
        · exact isNumeric_of_isDigit (d.isDigit_of_mem_digits (List.mem_of_mem_drop hc))

end PocketCalc.Decimal
