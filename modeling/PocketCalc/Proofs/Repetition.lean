import PocketCalc.Proofs.Calculator.Run

/-!
# Evaluating a result again

An evaluation puts the text of its result in place of the entry. In positional notation this text is
an expression with the same text as its result, so a second evaluation leaves the screen as it is.
In scientific notation it is not: the mark of the exponent is read as the name of a function, and
the second evaluation fails (`equals_equals`). A failure is repeated as it was.
-/

namespace PocketCalc

open Decimal Postfix
open Float.Model.UnpackedFloat (Sign)

/-! ## Tokens of a result -/

namespace Token

/-- A numeral ends before a letter. -/
theorem separate_numeral_letter {run : List Char} (h : IsNumeral run) {c : Char} (hc : c.isLower)
    (t : List Char) : Separate run (c :: t) := by
  intro d hd e he
  cases he
  have hnumeric : isNumeric d := h.isNumeric d (List.mem_of_mem_getLast? hd)
  have hlower : d.isLower = false := by
    rw [Bool.eq_false_iff]
    intro hlow
    rw [isNumeric_of_isLower hlow] at hnumeric
    cases hnumeric
  have hpercent : c ≠ '%' := by
    rintro rfl
    revert hc
    decide
  simp [joins, hlower, isNumeric_of_isLower hc, hpercent]

/-- The sign of a number is a token of its own. -/
theorem tokens_signed (s : Sign) (text : List Char) :
    tokens (signed s text) =
      match s with
      | .positive => tokens text
      | .negative => .operator .sub :: tokens text := by
  cases s with
  | positive => rfl
  | negative => exact tokens_symbol .sub text

/-- In scientific notation the mark of the exponent is read as a name. -/
theorem tokens_scientific (d : Decimal) : ∃ a op b, (op = .add ∨ op = .sub) ∧
    tokens d.scientific = [.number a, .function "e", .operator op, .number b] := by
  obtain ⟨mantissa, op, exponent, htext, hop, hmantissa, hexponent⟩ := d.exists_scientific
  have hname : IsName "e" := ⟨by decide, by decide, List.all_eq_true.mp rfl⟩
  have hfunction : tokens ['e'] = [.function "e"] := tokens_name hname
  have hmark : Separate ['e'] (Operator.symbol op :: exponent) := by
    intro c hc e he
    cases hc
    cases he
    rcases hop with rfl | rfl <;> decide
  refine ⟨readNumeral mantissa, op, readNumeral exponent, hop, ?_⟩
  have hrest := tokens_append hmark
  rw [hfunction, tokens_symbol, tokens_numeral hexponent] at hrest
  rw [htext, tokens_append (separate_numeral_letter hmantissa (by decide) _),
    tokens_numeral hmantissa]
  exact congrArg (.number (readNumeral mantissa) :: ·) hrest

end Token

/-! ## The value of a result -/

section Value

variable [Elementary]

/-- A numeral, with or without a minus sign before it, has the value that it is read as. -/
theorem evaluate_numeral {run : List Char} (h : Token.IsNumeral run) (s : Sign) :
    evaluate (String.ofList (signed s run)) = .ok (readSigned s run) := by
  unfold evaluate ofText
  rw [String.toList_ofList, Token.tokens_signed, Token.tokens_numeral h]
  cases s with
  | positive => rfl
  | negative => rfl

/-- A number in scientific notation is no expression. Whatever its signs are, the stack machine
comes to the mark of the exponent with an argument for it. -/
theorem evaluate_scientific (d : Decimal) (s : Sign) :
    evaluate (String.ofList (signed s d.scientific)) = .error (.unknownFunction "e") := by
  obtain ⟨a, op, b, hop, htokens⟩ := Token.tokens_scientific d
  unfold evaluate ofText
  rw [String.toList_ofList, Token.tokens_signed, htokens]
  -- `a e + b` is converted to `a e b +`, and `a e - b`, whose minus is a sign, to `a 0 b - e`
  rcases hop with rfl | rfl
  · cases s <;> rfl
  · cases s <;> rfl

/-- A result is an expression with itself as result, unless it shows the mark of an exponent. -/
theorem evaluate_display {x : Float} (hx : Binary64.value? x ≠ none) :
    ('e' ∉ (display x).toList → ∃ y, evaluate (display x) = .ok y ∧ display y = display x) ∧
      ('e' ∈ (display x).toList → evaluate (display x) = .error (.unknownFunction "e")) := by
  rcases general_of_finite hx (by decide : 1 ≤ displayDigits) with hzero | ⟨s, d, hd, hlt, htext⟩
  · have hread : evaluate "0" = .ok (readNumeral ['0']) :=
      evaluate_numeral ⟨by decide, List.all_eq_true.mp rfl⟩ .positive
    rw [display, hzero]
    exact ⟨fun _ => ⟨_, hread, by decide +kernel⟩, fun he => absurd he (by decide)⟩
  · have hmark := mem_generalText_iff s displayDigits d
    rw [display, htext, String.toList_ofList, hmark]
    by_cases hsci : isScientific displayDigits d = true
    · rw [generalText, if_pos hsci]
      exact ⟨fun he => absurd hsci he, fun _ => evaluate_scientific d s⟩
    · rw [generalText, if_neg hsci]
      refine ⟨fun _ => ⟨_, evaluate_numeral d.isNumeral_fixed s, ?_⟩, fun he => absurd he hsci⟩
      exact general_readSigned (by decide) (by decide) hd hlt (Bool.eq_false_iff.mpr hsci) s

end Value

/-! ## A second evaluation -/

namespace Calculator

/-- Two calculators that show the same and go on from it in the same way. They can differ in the
working of their last evaluation. -/
structure Agrees (c d : Calculator) : Prop where
  entry : c.entry = d.entry
  failure : c.failure = d.failure
  display : c.display = d.display
  justEvaluated : c.justEvaluated = d.justEvaluated

section

variable [Elementary]

/-- A failure is repeated: the entry that failed is still there. -/
theorem equals_equals_of_failure {c : Calculator} (h : c.equals.failure ≠ none) :
    c.equals.equals = c.equals := by
  cases hc : evaluate c.entry with
  | ok v =>
    obtain ⟨working, hw⟩ := equals_of_ok hc
    rw [hw] at h
    exact absurd rfl h
  | error e =>
    have hentry : c.equals.entry = c.entry := by rw [equals_of_error hc]
    rw [equals_of_error (hentry ▸ hc), equals_of_error hc]

/-- **Evaluating twice.** A second evaluation repeats a failure. It repeats a finite result exactly
if the result is displayed without the mark of an exponent; otherwise it fails, because the mark is
no function. -/
theorem equals_equals (c : Calculator) :
    (c.equals.failure ≠ none → c.equals.equals = c.equals) ∧
      (∀ v, evaluate c.entry = .ok v → Binary64.value? v ≠ none →
        c.equals.entry = Decimal.display v ∧
          (c.equals.equals.Agrees c.equals ↔ 'e' ∉ (Decimal.display v).toList) ∧
          ('e' ∈ (Decimal.display v).toList → c.equals.equals =
            ⟨Decimal.display v, some (.unknownFunction "e"), none, true⟩)) ∧
      ∀ x, Binary64.value? x ≠ none →
        ((∃ y, evaluate (Decimal.display x) = .ok y ∧ Decimal.display y = Decimal.display x) ↔
          'e' ∉ (Decimal.display x).toList) := by
  refine ⟨equals_equals_of_failure, ?_, ?_⟩
  · intro v hv hfinite
    obtain ⟨working, hw⟩ := equals_of_ok hv
    obtain ⟨hplain, hmark⟩ := evaluate_display hfinite
    have hfail : 'e' ∈ (Decimal.display v).toList → c.equals.equals =
        ⟨Decimal.display v, some (.unknownFunction "e"), none, true⟩ := by
      intro he
      rw [hw]
      exact equals_of_error (hmark he)
    have hentry : c.equals.entry = Decimal.display v := by rw [hw]
    refine ⟨hentry, ⟨?_, ?_⟩, hfail⟩
    · intro hagrees he
      have hfailure := hagrees.failure
      rw [hfail he, hw] at hfailure
      cases hfailure
    · -- the second result has the text of the first, only its working is new
      intro he
      obtain ⟨y, hy, hdisplay⟩ := hplain he
      rw [← hentry] at hy
      obtain ⟨again, hagain⟩ := equals_of_ok hy
      rw [hagain, hw, hdisplay]
      exact ⟨rfl, rfl, rfl, rfl⟩
  · intro x hfinite
    obtain ⟨hplain, hmark⟩ := evaluate_display hfinite
    refine ⟨?_, hplain⟩
    rintro ⟨y, hy, -⟩ he
    rw [hmark he] at hy
    cases hy

end

/-- An entry that fails, one with a result in positional notation and one with a result in
scientific notation. -/
theorem equals_equals_samples :
    (Calculator.mk "1/0" none none false).equals.equals =
        (Calculator.mk "1/0" none none false).equals ∧
      (Calculator.mk "2+0.5" none none false).equals.equals.Agrees
        (Calculator.mk "2+0.5" none none false).equals ∧
      (Calculator.mk "1000000" none none false).equals.equals =
        ⟨"1e+06", some (.unknownFunction "e"), none, true⟩ := by
  have hdivision : evaluate "1/0" = .error .divisionByZero := by with_unfolding_all rfl
  have hsum : evaluate "2+0.5" = .ok 2.5 := by with_unfolding_all rfl
  have hmillion : evaluate "1000000" = .ok 1000000 := by with_unfolding_all rfl
  have htext : Decimal.display 1000000 = "1e+06" := by decide +kernel
  obtain ⟨hfailed, -, -⟩ := equals_equals ⟨"1/0", none, none, false⟩
  obtain ⟨-, hplain, -⟩ := equals_equals ⟨"2+0.5", none, none, false⟩
  obtain ⟨-, hmark, -⟩ := equals_equals ⟨"1000000", none, none, false⟩
  refine ⟨hfailed ?_, ?_, ?_⟩
  · rw [equals_of_error hdivision]
    exact Option.some_ne_none _
  · exact (hplain 2.5 hsum (by decide +kernel)).2.1.mpr (by decide +kernel)
  · rw [← htext]
    exact (hmark 1000000 hmillion (by decide +kernel)).2.2 (by decide +kernel)

/-- After a million has been entered and evaluated, a second evaluation fails. -/
theorem not_agrees_equals_million :
    evaluate (initial.insert "1000000").entry = .ok 1000000 ∧
      Binary64.value? 1000000 = some 1000000 ∧
      ¬ (initial.insert "1000000").equals.equals.Agrees (initial.insert "1000000").equals := by
  have hmillion : evaluate (initial.insert "1000000").entry = .ok 1000000 := by
    with_unfolding_all rfl
  have hvalue : Binary64.value? 1000000 = some 1000000 := by decide +kernel
  refine ⟨hmillion, hvalue, ?_⟩
  intro hagrees
  obtain ⟨working, hfirst⟩ := equals_of_ok hmillion
  have hentry : evaluate (initial.insert "1000000").equals.entry =
      .error (.unknownFunction "e") := by
    rw [hfirst]
    exact (evaluate_display (by rw [hvalue]; exact Option.some_ne_none _)).2 (by decide +kernel)
  have hfailure := hagrees.failure
  rw [equals_of_error hentry, hfirst] at hfailure
  cases hfailure

end Calculator

end PocketCalc
