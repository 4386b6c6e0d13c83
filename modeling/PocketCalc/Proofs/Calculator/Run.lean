import PocketCalc.Calculator
import PocketCalc.Proofs.Decimal.Display

/-!
# Keys and runs of keys

What each key does to the parts of a calculator, and what typing a text does: each key has one lemma
for each part that it changes, so nothing else has to look into the definition of a key.
-/

namespace PocketCalc

open Decimal
open Float.Model.UnpackedFloat (Sign)

/-! ## Texts that are shown -/

/-- Every error has a message. -/
theorem CalcError.message_ne_empty (e : CalcError) : e.message ≠ "" := by
  unfold message
  cases e <;> simp

theorem Decimal.generalText_ne_nil (p : Nat) (d : Decimal) : generalText p d ≠ [] := by
  unfold generalText
  split
  · simp [scientific]
  · exact d.isNumeral_fixed.nonempty

theorem Decimal.signed_ne_nil (s : Sign) {text : List Char} (h : text ≠ []) :
    signed s text ≠ [] := by
  cases s with
  | positive => exact h
  | negative => exact List.cons_ne_nil _ _

/-- Every result has a text. -/
theorem Decimal.display_ne_empty (x : Float) : display x ≠ "" := by
  by_cases hx : Binary64.value? x = none
  · rcases general_of_not_finite hx displayDigits with hnan | ⟨s, hinf⟩
    · rw [display, hnan]
      decide
    · rw [display, hinf, ne_eq, String.ofList_eq_empty_iff]
      exact signed_ne_nil s (by decide)
  · rcases general_of_finite hx (by decide : 1 ≤ displayDigits) with hzero | ⟨s, d, -, -, htext⟩
    · rw [display, hzero]
      decide
    · rw [display, htext, ne_eq, String.ofList_eq_empty_iff]
      exact signed_ne_nil s (generalText_ne_nil _ d)

section

variable [Elementary]

/-! ## The stages of an evaluation -/

/-- The stages of a text with a value end with the text of this value. -/
theorem Working.ofText_of_ok {text : String} {v : Float} (h : evaluate text = .ok v) :
    ∃ w, Working.ofText text = .ok w ∧ w.result = display v := by
  obtain ⟨r, hr, hv⟩ := exists_ofText_of_evaluate h
  unfold Working.ofText
  rw [hr]
  simp only [Except.bind]
  rw [hv]
  exact ⟨_, rfl, rfl⟩

/-- A text without a value has no stages, for the same reason. -/
theorem Working.ofText_of_error {text : String} {e : CalcError} (h : evaluate text = .error e) :
    Working.ofText text = .error e := by
  unfold evaluate at h
  unfold Working.ofText
  cases hconverted : Postfix.ofText text with
  | error e' =>
    rw [hconverted] at h
    cases h
    rfl
  | ok r =>
    rw [hconverted] at h
    simp only [Except.bind] at h ⊢
    rw [h]
    rfl

end

namespace Calculator

/-! ## The screen -/

theorem message_of_failure {c : Calculator} {e : CalcError} (h : c.failure = some e) :
    c.message = e.message := by
  rw [message, h]
  rfl

/-- There is a message exactly if there is a failure. -/
theorem message_eq_empty_iff (c : Calculator) : c.message = "" ↔ c.failure = none := by
  cases h : c.failure with
  | none => simp [message, h]
  | some e => simpa [message_of_failure h] using e.message_ne_empty

/-- An entry that is not empty is displayed. -/
theorem display_of_entry {c : Calculator} (hfailure : c.failure = none) (hentry : c.entry ≠ "") :
    c.display = c.entry := by
  simp only [display, hfailure, if_neg hentry]

section

variable [Elementary]

/-! ## Single keys -/

/-- The stages of a success are kept, and the last of them takes the place of the entry. -/
theorem equals_of_stages {c : Calculator} {w : Working} (h : Working.ofText c.entry = .ok w) :
    c.equals = ⟨w.result, none, some w, true⟩ := by
  unfold equals
  rw [h]

/-- A result takes the place of the entry. -/
theorem equals_of_ok {c : Calculator} {v : Float} (h : evaluate c.entry = .ok v) :
    ∃ working, c.equals = ⟨Decimal.display v, none, some working, true⟩ := by
  obtain ⟨w, hw, hresult⟩ := Working.ofText_of_ok h
  exact ⟨w, by rw [equals_of_stages hw, hresult]⟩

theorem equals_of_error {c : Calculator} {e : CalcError} (h : evaluate c.entry = .error e) :
    c.equals = ⟨c.entry, some e, none, true⟩ := by
  unfold equals
  rw [Working.ofText_of_error h]

/-- After a success the entry is a result. -/
theorem exists_display_of_success {c : Calculator} (h : c.equals.failure = none) :
    ∃ v, c.equals.entry = Decimal.display v := by
  cases hc : evaluate c.entry with
  | ok v =>
    obtain ⟨w, hw⟩ := equals_of_ok hc
    exact ⟨v, by rw [hw]⟩
  | error e =>
    rw [equals_of_error hc] at h
    cases h

/-- Only an evaluation leaves a failure. -/
theorem failure_press (c : Calculator) {k : Key} (h : k ≠ .equals) :
    (c.press k).failure = none := by
  cases k with
  | equals => exact absurd rfl h
  | clear | delete | insert text => rfl

/-- Only an evaluation and clearing change the stages that are explained. -/
theorem working_press (c : Calculator) {k : Key} (hequals : k ≠ .equals) (hclear : k ≠ .clear) :
    (c.press k).working = c.working := by
  cases k with
  | equals => exact absurd rfl hequals
  | clear => exact absurd rfl hclear
  | delete | insert text => rfl

/-! ## Runs -/

theorem run_append (c : Calculator) (keys more : List Key) :
    c.run (keys ++ more) = (c.run keys).run more := List.foldl_append

theorem run_concat (c : Calculator) (keys : List Key) (k : Key) :
    c.run (keys ++ [k]) = (c.run keys).press k := run_append c keys [k]

end

/-! ## Typing -/

/-- The keys of the characters of a text. -/
def typed (text : List Char) : List Key := text.map fun c => .insert c.toString

/-- No name of a function is a single character. -/
theorem isFunctionName_toString (c : Char) : isFunctionName c.toString = false := by
  have hnone : UnaryFunction.ofName? c.toString = none := by
    rw [UnaryFunction.ofName?, List.find?_eq_none]
    intro f hf hname
    have hlength := congrArg String.length (eq_of_beq hname)
    simp only [Char.toString, String.length_singleton] at hlength
    revert hlength hf
    rcases f with _ | _ | _ | (_ | _ | _) <;> decide
  rw [isFunctionName, hnone]
  rfl

theorem inserted_toString (c : Char) : inserted c.toString = c.toString := by
  rw [inserted, isFunctionName_toString, if_neg Bool.false_ne_true]

/-- An operator goes on from the entry in either mode. -/
theorem insert_operator (c : Calculator) (op : Operator) : c.insert op.symbol.toString =
    ⟨c.entry ++ op.symbol.toString, none, c.working, false⟩ := by
  have hnew : startsAnew op.symbol.toString = false := by cases op <;> decide
  have hcontinues : continues op.symbol.toString = true := by cases op <;> decide
  simp only [insert, hnew, hcontinues, inserted_toString, Bool.and_false, Bool.or_true,
    Bool.not_true, if_neg Bool.false_ne_true]

/-- Typed characters are added to the entry, unless a result has just been shown. -/
theorem run_typed [Elementary] {c : Calculator} (hmode : c.justEvaluated = false)
    (hfailure : c.failure = none) (text : List Char) :
    c.run (typed text) = { c with entry := c.entry ++ String.ofList text } := by
  induction text generalizing c with
  | nil => simp [run, typed]
  | cons a text ih =>
    have hpress : c.press (.insert a.toString) = { c with entry := c.entry ++ a.toString } := by
      simp only [press, insert, hmode, hfailure, inserted_toString, Bool.false_and,
        if_neg Bool.false_ne_true]
    have hrun : c.run (typed (a :: text)) = (c.press (.insert a.toString)).run (typed text) := rfl
    have htext : a.toString ++ String.ofList text = String.ofList (a :: text) :=
      String.ofList_cons.symm
    rw [hrun, hpress, ih (by exact hmode) (by exact hfailure), String.append_assoc, htext]

end Calculator

end PocketCalc
