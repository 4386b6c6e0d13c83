import PocketCalc.Proofs.Composition
import PocketCalc.Proofs.Grammar.Conversion
import PocketCalc.Proofs.Repetition

/-!
# Going on from a result

An operator pressed after a result and a literal typed behind it are added to the text of the
result, and the whole text is evaluated. For a result without a sign this applies the operator to
the value that is shown. A minus sign in front of the result is read as a sign again, which binds
closer than every operator but a power: with a power it stays outside (`operate_equals`).
-/

namespace PocketCalc

open Decimal Postfix
open Float.Model.UnpackedFloat (Sign)

/-! ## Literals -/

/-- An unsigned decimal literal: digits, possibly with a point among them or at an end. -/
structure Literal where
  whole : List Char
  /-- The digits behind the point, if there is a point. -/
  fraction : Option (List Char)
  isDigit_whole : ∀ c ∈ whole, c.isDigit
  isDigit_fraction : ∀ c ∈ fraction.getD [], c.isDigit
  nonempty : whole ++ fraction.getD [] ≠ []

namespace Literal

variable (l : Literal)

/-- The characters of a literal. -/
def chars : List Char := l.whole ++ l.fraction.elim [] ('.' :: ·)

/-- The decimal that a literal denotes. -/
def decimal : Decimal :=
  ⟨Nat.ofDigitChars 10 (l.whole ++ l.fraction.getD []) 0, -(l.fraction.getD []).length⟩

/-- The double that a literal denotes. -/
def double : Float := Binary64.nearest l.decimal.value

/-- The double that a literal with a sign denotes. -/
def signedDouble : Sign → Float
  | .positive => l.double
  | .negative => -l.double

/-- A literal is a numeral. -/
theorem isNumeral_chars : Token.IsNumeral l.chars := by
  obtain ⟨whole, fraction, hwhole, hfraction, hne⟩ := l
  cases fraction with
  | none =>
    refine ⟨by simpa [chars] using hne, ?_⟩
    intro c hc
    rw [chars, Option.elim_none, List.append_nil] at hc
    exact isNumeric_of_isDigit (hwhole c hc)
  | some fraction =>
    refine ⟨by simp [chars], ?_⟩
    intro c hc
    rw [chars, Option.elim_some, List.mem_append, List.mem_cons] at hc
    rcases hc with hc | rfl | hc
    · exact isNumeric_of_isDigit (hwhole c hc)
    · decide
    · exact isNumeric_of_isDigit (hfraction c hc)

/-- A literal is read as the double that it denotes. -/
theorem readNumeral_chars : readNumeral l.chars = l.double := by
  obtain ⟨whole, fraction, hwhole, hfraction, hne⟩ := l
  cases fraction with
  | none =>
    have hread : ofNumeral whole = ⟨Nat.ofDigitChars 10 whole 0, 0⟩ := ofNumeral_digits hwhole
    simp [readNumeral_eq, chars, double, decimal, hread]
  | some fraction =>
    have hread := ofNumeral_point hwhole hfraction
    rw [Option.getD_some] at hread
    simp [readNumeral_eq, chars, double, decimal, hread]

end Literal

/-! ## The text of a continued result -/

namespace Token

theorem tokens_operation {run more : List Char} (hrun : IsNumeral run) (hmore : IsNumeral more)
    (op : Operator) : tokens (run ++ op.symbol :: more) =
      [.number (readNumeral run), .operator op, .number (readNumeral more)] := by
  have hop : Separate run (op.symbol :: more) :=
    separate_of_symbol (by cases op <;> decide) run more
  rw [tokens_append hop, tokens_numeral hrun, tokens_symbol, tokens_numeral hmore]
  rfl

end Token

/-- The tree of an operation on a number with a sign: the sign binds closer than the operator,
unless that is a power. -/
def operationTree (s : Sign) (op : Operator) (a b : Float) : Expression :=
  match s, op with
  | .positive, op => .binary op (.number a) (.number b)
  | .negative, .pow => Expression.negate (.binary .pow (.number a) (.number b))
  | .negative, op => .binary op (Expression.negate (.number a)) (.number b)

section

variable [Elementary]

theorem evaluate_operation {run more : List Char} (hrun : Token.IsNumeral run)
    (hmore : Token.IsNumeral more) (s : Sign) (op : Operator) :
    evaluate (String.ofList (signed s run ++ op.symbol :: more)) =
      (operationTree s op (readNumeral run) (readNumeral more)).evaluate := by
  have hsigned : signed s run ++ op.symbol :: more = signed s (run ++ op.symbol :: more) := by
    cases s <;> rfl
  have hconverted : ofText (String.ofList (signed s run ++ op.symbol :: more)) =
      .ok (operationTree s op (readNumeral run) (readNumeral more)).postorder := by
    rw [ofText, String.toList_ofList, hsigned, Token.tokens_signed,
      Token.tokens_operation hrun hmore]
    cases s with
    | positive => cases op <;> rfl
    | negative => cases op <;> rfl
  rw [evaluate_of_ofText hconverted, Grammar.evaluate_postorder]

/-- A power of a number with a minus sign is negated as a whole. -/
theorem evaluate_operationTree_pow (a b : Float) :
    (operationTree .negative .pow a b).evaluate = (Operator.pow.apply a b).map (0 - ·) := by
  have htree : (operationTree .negative .pow a b).evaluate =
      (Operator.pow.apply a b).bind (Operator.sub.apply 0) := rfl
  rw [htree]
  cases Operator.pow.apply a b <;> rfl

theorem evaluate_operationTree {s : Sign} {op : Operator} (h : s = .positive ∨ op ≠ .pow)
    (run : List Char) (b : Float) :
    (operationTree s op (readNumeral run) b).evaluate = op.apply (readSigned s run) b := by
  cases s with
  | positive => rfl
  | negative =>
    cases op with
    | pow => simp at h
    | add | sub | mul | div => rfl

end

/-! ## A result with a minus sign -/

/-- A numeral behind the minus sign of a result is not read as zero: it is in positional notation,
which is read back. -/
theorem readNumeral_ne_zero_of_display {x : Float} {run : List Char} (hrun : Token.IsNumeral run)
    (h : display x = String.ofList ('-' :: run)) (s : Sign) :
    Binary64.unpacked (readNumeral run) ≠ .zero s := by
  have hfinite : Binary64.value? x ≠ none := by
    intro hnone
    rcases general_of_not_finite hnone displayDigits with hnan | ⟨s', hinf⟩
    · rw [display, hnan, String.ofList_inj] at h
      cases h
    · rw [display, hinf, String.ofList_inj] at h
      cases s' with
      | positive => cases h
      | negative =>
        cases h
        exact absurd (hrun.isNumeric 'i' (by decide)) (by decide)
  rcases general_of_finite hfinite (by decide : 1 ≤ displayDigits) with
    hzero | ⟨s', d, hd, hlt, htext⟩
  · rw [display, hzero, String.ofList_inj] at h
    cases h
  · rw [display, htext, String.ofList_inj] at h
    have hmark : ¬ isScientific displayDigits d = true := by
      rw [← mem_generalText_iff s', h, List.mem_cons]
      rintro (he | he)
      · cases he
      · exact absurd (hrun.isNumeric 'e' he) (by decide)
    rw [generalText, if_neg hmark] at h
    have hfixed : d.fixed = run := by
      cases s' with
      | negative => exact List.tail_eq_of_cons_eq h
      | positive =>
        have hminus : '-' ∈ d.fixed := Eq.mpr (congrArg ('-' ∈ ·) h) List.mem_cons_self
        exact absurd (d.isNumeral_fixed.isNumeric '-' hminus) (by decide)
    obtain ⟨m, e, hm, hread, -⟩ := reduced_rounded_readNumeral (by decide) (by decide) hd hlt
      (Bool.eq_false_iff.mpr hmark)
    rw [← hfixed, hread]
    intro heq
    cases heq

/-- A literal that is a result is read as the double that it denotes, sign included. -/
theorem readSigned_of_display {x : Float} {s : Sign} {r : Literal}
    (h : display x = String.ofList (signed s r.chars)) :
    readSigned s r.chars = r.signedDouble s := by
  cases s with
  | positive => exact r.readNumeral_chars
  | negative =>
    have hzero := readNumeral_ne_zero_of_display r.isNumeral_chars h
    rw [r.readNumeral_chars] at hzero
    rw [readSigned, r.readNumeral_chars]
    exact Binary64.zero_sub_eq_neg hzero

/-! ## Going on from a result -/

namespace Calculator

/-- The calculator shows the outcome of an operation. -/
def Shows (c : Calculator) : Except CalcError Float → Prop
  | .ok z => c.entry = Decimal.display z ∧ c.display = Decimal.display z ∧ c.message = ""
  | .error e => c.display = "Erreur" ∧ c.message = e.message

section

variable [Elementary]

/-- An evaluation shows the outcome of its entry. -/
theorem shows_equals (c : Calculator) : c.equals.Shows (evaluate c.entry) := by
  cases h : evaluate c.entry with
  | ok v =>
    obtain ⟨w, hw⟩ := equals_of_ok h
    rw [hw]
    exact ⟨rfl, display_of_entry rfl (display_ne_empty v), rfl⟩
  | error e =>
    rw [equals_of_error h]
    exact ⟨rfl, rfl⟩

/-- Presses an operator, types a literal behind it and evaluates. -/
def operate (c : Calculator) (op : Operator) (n : Literal) : Calculator :=
  c.run (typed (op.symbol :: n.chars) ++ [.equals])

/-- An operator and a text typed behind it are added to the entry. -/
theorem entry_run_operator (c : Calculator) (op : Operator) (text : List Char) :
    (c.run (typed (op.symbol :: text))).entry = c.entry ++ String.ofList (op.symbol :: text) := by
  have hrun : c.run (typed (op.symbol :: text)) =
      (c.insert op.symbol.toString).run (typed text) := rfl
  have htext : op.symbol.toString ++ String.ofList text = String.ofList (op.symbol :: text) :=
    String.ofList_cons.symm
  rw [hrun, insert_operator, run_typed rfl rfl, String.append_assoc, htext]

/-- Behind a literal with a sign, the operation is that of the tree of the whole text. -/
theorem shows_operate {c : Calculator} {s : Sign} {r : Literal}
    (hentry : c.entry = String.ofList (signed s r.chars)) (op : Operator) (n : Literal) :
    (c.operate op n).Shows (operationTree s op (readNumeral r.chars) n.double).evaluate := by
  have hrun : c.operate op n = (c.run (typed (op.symbol :: n.chars))).equals := run_concat c _ _
  have htext : (c.run (typed (op.symbol :: n.chars))).entry =
      String.ofList (signed s r.chars ++ op.symbol :: n.chars) := by
    rw [entry_run_operator, hentry, ← String.ofList_append]
  rw [← n.readNumeral_chars, ← evaluate_operation r.isNumeral_chars n.isNumeral_chars, ← htext,
    hrun]
  exact shows_equals _

/-- **Going on from a result.** An operator applies to the result that is displayed, except for a
power of a result with a minus sign, which is the negated power of the result without the sign. -/
theorem operate_equals {c : Calculator} {s : Sign} {r : Literal}
    (hsuccess : c.equals.failure = none)
    (hentry : c.equals.entry = String.ofList (signed s r.chars)) (op : Operator) (n : Literal) :
    (s = .positive ∨ op ≠ .pow →
        (c.equals.operate op n).Shows (op.apply (r.signedDouble s) n.double)) ∧
      (s = .negative → op = .pow →
        (c.equals.operate op n).Shows ((Operator.pow.apply r.double n.double).map (0 - ·))) := by
  have hshows := shows_operate hentry op n
  constructor
  · intro h
    obtain ⟨v, hv⟩ := exists_display_of_success hsuccess
    rwa [evaluate_operationTree h, readSigned_of_display (hv.symm.trans hentry)] at hshows
  · rintro rfl rfl
    rwa [evaluate_operationTree_pow, r.readNumeral_chars] at hshows

end

/-- A calculator whose result is `-8`. -/
def minusEight : Calculator := initial.run (typed "0-8".toList)

def eight : Literal :=
  ⟨['8'], none, List.all_eq_true.mp rfl, List.all_eq_true.mp rfl, List.cons_ne_nil _ _⟩

def oneHalf : Literal :=
  ⟨['0'], some ['5'], List.all_eq_true.mp rfl, List.all_eq_true.mp rfl, List.cons_ne_nil _ _⟩

theorem equals_minusEight : minusEight.equals.failure = none ∧
    minusEight.equals.entry = String.ofList (signed .negative eight.chars) := by
  have hentry : minusEight.entry = "0-8" := by decide +kernel
  have hvalue : evaluate minusEight.entry = .ok (-8) := by
    rw [hentry]
    with_unfolding_all rfl
  have htext : Decimal.display (-8) = "-8" := by decide +kernel
  obtain ⟨w, hw⟩ := equals_of_ok hvalue
  rw [hw, htext]
  exact ⟨rfl, rfl⟩

theorem double_eight : eight.double = 8 := by decide +kernel

theorem double_oneHalf : oneHalf.double = 0.5 := by decide +kernel

theorem pow_eight_oneHalf :
    Operator.pow.apply eight.double oneHalf.double = .ok (Elementary.pow 8 0.5) := by
  rw [double_eight, double_oneHalf]
  with_unfolding_all rfl

/-- Division goes on from `-8`; a power is taken of `8` and negated. -/
theorem operate_equals_minusEight :
    minusEight.equals.failure = none ∧
      minusEight.equals.entry = String.ofList (signed .negative eight.chars) ∧
      (minusEight.equals.operate .div oneHalf).Shows (.ok (-16)) ∧
      (minusEight.equals.operate .pow oneHalf).Shows (.ok (0 - Elementary.pow 8 0.5)) := by
  obtain ⟨hsuccess, hentry⟩ := equals_minusEight
  have hdiv : Operator.div.apply (eight.signedDouble .negative) oneHalf.double = .ok (-16) := by
    rw [Literal.signedDouble, double_eight, double_oneHalf]
    with_unfolding_all rfl
  have hquotient := (operate_equals hsuccess hentry .div oneHalf).1 (.inr (by decide))
  have hpower := (operate_equals hsuccess hentry .pow oneHalf).2 rfl rfl
  rw [hdiv] at hquotient
  rw [pow_eight_oneHalf] at hpower
  exact ⟨hsuccess, hentry, hquotient, hpower⟩

/-- A power of `-8` to a fraction is refused, but behind the result `-8` the same keys give a
result. -/
theorem not_shows_power_of_minusEight :
    minusEight.equals.failure = none ∧
      minusEight.equals.entry = String.ofList (signed .negative eight.chars) ∧
      ¬ (minusEight.equals.operate .pow oneHalf).Shows
        (Operator.pow.apply (eight.signedDouble .negative) oneHalf.double) := by
  obtain ⟨hsuccess, hentry⟩ := equals_minusEight
  have hrefused : Operator.pow.apply (eight.signedDouble .negative) oneHalf.double =
      .error .negativeToFractionalPower := by
    rw [Literal.signedDouble, double_eight, double_oneHalf]
    with_unfolding_all rfl
  have hshown := shows_operate hentry .pow oneHalf
  rw [eight.readNumeral_chars, evaluate_operationTree_pow,
    pow_eight_oneHalf] at hshown
  rw [hrefused]
  refine ⟨hsuccess, hentry, ?_⟩
  rintro ⟨-, hmessage⟩
  exact CalcError.message_ne_empty _ (hmessage.symm.trans hshown.2.2)

end Calculator

end PocketCalc
