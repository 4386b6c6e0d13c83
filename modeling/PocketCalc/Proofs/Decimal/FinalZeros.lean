import PocketCalc.Decimal.Text
import PocketCalc.Proofs.Decimal.Notation

/-!
# Zeros at the end of a text

Dropping the zeros at the end of positional notation, and a point that is left with nothing behind
it, is the same as reducing the decimal that is written (`withoutFinalZeros_fixed`). Zeros before
the point are no zeros at the end: without a point a text stays as it is.
-/

namespace PocketCalc.Decimal

/-! ## Texts -/

theorem withoutFinalZeros_of_no_point {text : List Char} (h : '.' ∉ text) :
    withoutFinalZeros text = text := if_neg h

/-- A text with a point loses a zero at its end. -/
theorem withoutFinalZeros_append_zero {text : List Char} (h : '.' ∈ text) :
    withoutFinalZeros (text ++ ['0']) = withoutFinalZeros text := by
  have happ : '.' ∈ text ++ ['0'] := List.mem_append_left _ h
  rw [withoutFinalZeros, withoutFinalZeros, if_pos happ, if_pos h]
  simp

/-- A fraction that is zero is lost together with its point. -/
theorem withoutFinalZeros_append_point_zero {text : List Char} (h : '.' ∉ text) :
    withoutFinalZeros (text ++ ['.', '0']) = text := by
  have hstop : (text.reverse.dropWhile (· == '.')).reverse = text := by
    cases htext : text.reverse with
    | nil => simpa using (List.reverse_eq_nil_iff.mp htext).symm
    | cons c rest =>
      have hc : (c == '.') = false := by
        refine beq_false_of_ne ?_
        rintro rfl
        exact h (List.mem_reverse.mp (htext ▸ List.mem_cons_self))
      rw [List.dropWhile_cons, hc, if_neg Bool.false_ne_true, ← htext, List.reverse_reverse]
  rw [withoutFinalZeros, if_pos (by simp)]
  simpa using hstop

/-- A last character that is neither zero nor point ends the dropping. -/
theorem withoutFinalZeros_of_last {text : List Char} {c : Char} (hzero : c ≠ '0')
    (hpoint : c ≠ '.') : withoutFinalZeros (text ++ [c]) = text ++ [c] := by
  unfold withoutFinalZeros
  split
  · simp [hzero, hpoint]
  · rfl

/-! ## Digits -/

theorem toDigits_of_dvd {c : Nat} (h0 : c ≠ 0) (h : c % 10 = 0) :
    Nat.toDigits 10 c = Nat.toDigits 10 (c / 10) ++ ['0'] := by
  rw [Nat.toDigits_of_base_le (by decide) (by omega : 10 ≤ c), h]
  rfl

/-- The last digit is the units digit. -/
theorem exists_toDigits_concat (c : Nat) :
    ∃ front, Nat.toDigits 10 c = front ++ [(c % 10).digitChar] := by
  by_cases h : c < 10
  · refine ⟨[], ?_⟩
    rw [Nat.toDigits_of_lt_base h, Nat.mod_eq_of_lt h, List.nil_append]
  · exact ⟨_, Nat.toDigits_of_base_le (by decide) (by omega)⟩

theorem digitChar_ne_zero {n : Nat} (h : n % 10 ≠ 0) : (n % 10).digitChar ≠ '0' := by
  intro hc
  have hval := congrArg Char.toNat hc
  rw [Nat.toNat_digitChar_of_lt_ten (by omega)] at hval
  simp at hval
  omega

theorem point_notMem_digits (d : Decimal) : '.' ∉ d.digits := by
  intro h
  exact absurd (d.isDigit_of_mem_digits h) (by decide)

/-! ## Positional notation -/

/-- The digits of `c` with zeros in front, for one digit at least before `n` places. -/
def padded (c n : Nat) : List Char := (Nat.toDigits 10 c).leftpad (n + 1) '0'

theorem lt_length_padded (c n : Nat) : n < (padded c n).length := by
  rw [padded, List.length_leftpad]
  omega

theorem isDigit_of_mem_padded {c n : Nat} {x : Char} (h : x ∈ padded c n) : x.isDigit :=
  isDigit_of_mem_leftpad ⟨c, 0⟩ h

theorem ofDigitChars_padded (c n : Nat) : Nat.ofDigitChars 10 (padded c n) 0 = c :=
  ofDigitChars_leftpad ⟨c, 0⟩ (n + 1)

/-- Nothing is put in front of enough digits. -/
theorem padded_of_lt {c n : Nat} (h : n < (Nat.toDigits 10 c).length) :
    padded c n = Nat.toDigits 10 c := by
  have hpad : n + 1 - (Nat.toDigits 10 c).length = 0 := by omega
  rw [padded, List.leftpad, hpad, List.replicate_zero, List.nil_append]

theorem padded_of_dvd {c : Nat} (h0 : c ≠ 0) (h : c % 10 = 0) (n : Nat) :
    padded c (n + 1) = padded (c / 10) n ++ ['0'] := by
  rw [padded, toDigits_of_dvd h0 h, padded]
  simp [List.leftpad]

theorem exists_padded_concat (c n : Nat) :
    ∃ front, padded c n = front ++ [(c % 10).digitChar] := by
  obtain ⟨digits, hdigits⟩ := exists_toDigits_concat c
  rw [padded, hdigits, List.leftpad, ← List.append_assoc]
  exact ⟨_, rfl⟩

theorem fixed_of_nonneg {d : Decimal} (h : 0 ≤ d.exponent) :
    d.fixed = d.digits ++ List.replicate d.exponent.toNat '0' := if_pos h

/-- A decimal with a negative exponent has places behind the point. -/
theorem exists_places {d : Decimal} (h : ¬ 0 ≤ d.exponent) :
    ∃ n : Nat, 0 < n ∧ d = ⟨d.coefficient, -n⟩ := by
  refine ⟨(-d.exponent).toNat, by omega, ?_⟩
  have hexp : d.exponent = -((-d.exponent).toNat : Int) := by omega
  rw [← hexp]

theorem fixed_of_places (c : Nat) {n : Nat} (hn : 0 < n) :
    fixed ⟨c, -n⟩ = (padded c n).take ((padded c n).length - n) ++
      '.' :: (padded c n).drop ((padded c n).length - n) := by
  have hneg : ¬ (0 : Int) ≤ -n := by omega
  have hplaces : (- -(n : Int)).toNat = n := by omega
  rw [fixed, if_neg hneg]
  simp only [hplaces]
  rfl

/-- A zero at the end of the coefficient is a zero at the end of the text. -/
theorem fixed_of_dvd {c : Nat} (h0 : c ≠ 0) (h : c % 10 = 0) (n : Nat) :
    fixed ⟨c, -(n + 1 : Nat)⟩ =
      fixed ⟨c / 10, -n⟩ ++ if n = 0 then ['.', '0'] else ['0'] := by
  have hlength := lt_length_padded (c / 10) n
  have hcut : (padded (c / 10) n).length + 1 - (n + 1) = (padded (c / 10) n).length - n := by omega
  rw [fixed_of_places c (Nat.succ_pos n), padded_of_dvd h0 h, List.length_append,
    List.length_singleton, hcut, List.take_append_of_le_length (Nat.sub_le _ _),
    List.drop_append_of_le_length (Nat.sub_le _ _)]
  by_cases hn : n = 0
  · subst hn
    have hwhole : padded (c / 10) 0 = fixed ⟨c / 10, 0⟩ := by
      simp [padded_of_lt (Nat.length_toDigits_pos (b := 10)), fixed, digits]
    simp [hwhole]
  · rw [fixed_of_places _ (Nat.pos_of_ne_zero hn), if_neg hn]
    simp

/-- Behind a point the last digit of the coefficient is the end of the text. -/
theorem exists_fixed_concat (c : Nat) {n : Nat} (hn : 0 < n) :
    ∃ front, fixed ⟨c, -n⟩ = front ++ [(c % 10).digitChar] := by
  obtain ⟨front, hfront⟩ := exists_padded_concat c n
  have hlength := lt_length_padded c n
  rw [hfront, List.length_append, List.length_singleton] at hlength
  rw [fixed_of_places c hn, hfront, List.length_append, List.length_singleton,
    List.drop_append_of_le_length (by omega), ← List.cons_append, ← List.append_assoc]
  exact ⟨_, rfl⟩

theorem withoutFinalZeros_of_not_dvd {d : Decimal} (h : d.coefficient % 10 ≠ 0) :
    withoutFinalZeros d.fixed = d.fixed := by
  by_cases hexp : 0 ≤ d.exponent
  · refine withoutFinalZeros_of_no_point ?_
    rw [fixed_of_nonneg hexp, List.mem_append, not_or]
    exact ⟨d.point_notMem_digits, fun hmem => absurd (List.eq_of_mem_replicate hmem) (by decide)⟩
  · obtain ⟨n, hn, hd⟩ := exists_places hexp
    obtain ⟨front, hfront⟩ := exists_fixed_concat d.coefficient hn
    rw [← hd] at hfront
    have hdigit : (d.coefficient % 10).digitChar.isDigit := by
      rw [Nat.isDigit_digitChar, decide_eq_true_eq]
      omega
    rw [hfront]
    refine withoutFinalZeros_of_last (digitChar_ne_zero h) ?_
    intro hpoint
    rw [hpoint] at hdigit
    exact absurd hdigit (by decide)

/-- Moving a zero from the coefficient into the exponent changes the text at most at its end. -/
theorem withoutFinalZeros_of_dvd {c : Nat} (h0 : c ≠ 0) (h : c % 10 = 0) (e : Int) :
    withoutFinalZeros (fixed ⟨c, e⟩) = withoutFinalZeros (fixed ⟨c / 10, e + 1⟩) := by
  by_cases hexp : 0 ≤ e
  · obtain ⟨n, rfl⟩ := Int.eq_ofNat_of_zero_le hexp
    have hzeros : ((n : Int) + 1).toNat = n + 1 := by omega
    rw [fixed_of_nonneg (by simp), fixed_of_nonneg (by simp only; omega), digits, digits,
      toDigits_of_dvd h0 h]
    simp [hzeros, List.replicate_succ]
  · obtain ⟨n, hn⟩ : ∃ n : Nat, e = -(n + 1 : Nat) := ⟨(-e - 1).toNat, by omega⟩
    have hnext : e + 1 = -n := by omega
    rw [hnext, hn, fixed_of_dvd h0 h]
    by_cases hplaces : n = 0
    · subst hplaces
      have hpoint : '.' ∉ fixed ⟨c / 10, -(0 : Nat)⟩ := by
        simpa [fixed] using point_notMem_digits ⟨c / 10, 0⟩
      rw [if_pos rfl, withoutFinalZeros_append_point_zero hpoint,
        withoutFinalZeros_of_no_point hpoint]
    · have hpoint : '.' ∈ fixed ⟨c / 10, -n⟩ := by
        rw [fixed_of_places _ (Nat.pos_of_ne_zero hplaces)]
        simp
      rw [if_neg hplaces, withoutFinalZeros_append_zero hpoint]

/-- **Final zeros.** Dropping them is reducing the decimal that is written. -/
theorem withoutFinalZeros_fixed {d : Decimal} (h : d.coefficient ≠ 0) :
    withoutFinalZeros d.fixed = d.reduced.fixed := by
  fun_induction reduced d with
  | case1 d hd ih =>
    rw [← ih (by simp only; omega)]
    exact withoutFinalZeros_of_dvd hd.1 hd.2 d.exponent
  | case2 d hd => exact withoutFinalZeros_of_not_dvd (by omega)

end PocketCalc.Decimal
