import PocketCalc.Proofs.Calculator.Mode
import PocketCalc.Proofs.Postfix.Faults
import PocketCalc.Proofs.StackMachine.Errors

/-!
# The characters of the entry

Whatever is typed and clicked, the entry holds digits, points, lower-case letters, operators,
parentheses and percent signs only: buttons and the keyboard insert nothing else, and the text of a
result, with its sign, its exponent or its name, has no other characters. Of these only the percent
sign can stand as a token that is refused, so no evaluation in the window refuses any other
character (`entry_of_frames`).
-/

namespace PocketCalc

open Token (tokens isNumeric)

/-- The characters of an entry. -/
def isEntryCharacter (c : Char) : Bool :=
  isNumeric c || c.isLower || "+-*/^()%".toList.contains c

/-! ## Which characters are refused -/

/-- Among the characters of an entry, only the percent sign can be refused. -/
theorem Token.eq_percent_of_invalid {s : List Char} {c : Char} (hs : ∀ x ∈ s, isEntryCharacter x)
    (h : .invalid c ∈ tokens s) : c = '%' := by
  obtain ⟨hmem, hclass, hchar⟩ := Token.mem_of_invalid h
  have hc := hs c hmem
  rw [isEntryCharacter, hclass, Bool.false_or, List.contains_iff_mem] at hc
  have hall : ("+-*/^()%".toList.all fun x => Token.ofChar x != .invalid x || x == '%') = true := by
    decide
  simpa [hchar] using List.all_eq_true.mp hall c hc

/-- An evaluation of such characters refuses none but the percent sign. -/
theorem eq_percent_of_evaluate [Elementary] {text : String} {c : Char}
    (htext : ∀ x ∈ text.toList, isEntryCharacter x)
    (h : evaluate text = .error (.invalidCharacter c)) : c = '%' := by
  have hconverted := ofText_of_evaluate_lexical h rfl
  exact Token.eq_percent_of_invalid htext
    (Postfix.mem_of_invalidCharacter hconverted (Token.endMark_notMem_tokens _))

/-! ## The characters of results and keys -/

namespace Decimal

theorem isEntryCharacter_of_isNumeric {c : Char} (h : isNumeric c) : isEntryCharacter c := by
  simp [isEntryCharacter, h]

theorem isEntryCharacter_generalText {p : Nat} {d : Decimal} {c : Char}
    (h : c ∈ generalText p d) : isEntryCharacter c := by
  unfold generalText at h
  split at h
  · obtain ⟨mantissa, op, exponent, htext, -, hmantissa, hexponent⟩ := d.exists_scientific
    simp only [htext, List.mem_append, List.mem_cons] at h
    rcases h with h | rfl | rfl | h
    · exact isEntryCharacter_of_isNumeric (hmantissa.isNumeric c h)
    · decide
    · cases op <;> decide
    · exact isEntryCharacter_of_isNumeric (hexponent.isNumeric c h)
  · exact isEntryCharacter_of_isNumeric (d.isNumeral_fixed.isNumeric c h)

theorem isEntryCharacter_signed {s : Float.Model.UnpackedFloat.Sign} {text : List Char}
    (h : ∀ c ∈ text, isEntryCharacter c) : ∀ c ∈ signed s text, isEntryCharacter c := by
  cases s with
  | positive => exact h
  | negative =>
    intro c hc
    rcases List.mem_cons.mp hc with rfl | hc
    · decide
    · exact h c hc

/-- The text of any result, finite or not. -/
theorem isEntryCharacter_display (x : Float) : ∀ c ∈ (display x).toList, isEntryCharacter c := by
  by_cases hx : Binary64.value? x = none
  · rcases general_of_not_finite hx displayDigits with hnan | ⟨s, hinf⟩
    · rw [display, hnan]
      exact List.all_eq_true.mp rfl
    · rw [display, hinf, String.toList_ofList]
      exact isEntryCharacter_signed (List.all_eq_true.mp rfl)
  · rcases general_of_finite hx (by decide : 1 ≤ displayDigits) with hzero | ⟨s, d, -, -, htext⟩
    · rw [display, hzero]
      exact List.all_eq_true.mp rfl
    · rw [display, htext, String.toList_ofList]
      exact isEntryCharacter_signed fun c hc => isEntryCharacter_generalText hc

end Decimal

/-- The text that a button inserts. -/
theorem Keypad.isEntryCharacter_inserted {text : String} (h : .insert text ∈ keys) :
    ∀ c ∈ (Calculator.inserted text).toList, isEntryCharacter c := by
  have hall : (keys.all fun
      | .insert t => (Calculator.inserted t).toList.all isEntryCharacter
      | _ => true) = true := by decide
  exact List.all_eq_true.mp (by simpa using List.all_eq_true.mp hall _ h)

/-! ## Keys and frames -/

namespace Calculator

/-- The entry holds entry characters, and no failure names another character than the percent
sign. -/
structure Clean (c : Calculator) : Prop where
  entry : ∀ x ∈ c.entry.toList, isEntryCharacter x
  failure : ∀ x, c.failure = some (.invalidCharacter x) → x = '%'

section

variable [Elementary]

theorem clean_equals {c : Calculator} (h : ∀ x ∈ c.entry.toList, isEntryCharacter x) :
    Clean c.equals := by
  cases hvalue : evaluate c.entry with
  | ok v =>
    obtain ⟨w, hw⟩ := equals_of_ok hvalue
    rw [hw]
    exact ⟨Decimal.isEntryCharacter_display v, fun x hx => by cases hx⟩
  | error e =>
    rw [equals_of_error hvalue]
    refine ⟨h, ?_⟩
    intro x hx
    cases hx
    exact eq_percent_of_evaluate h hvalue

/-- Every key of the keypad keeps the entry clean. -/
theorem Clean.press {c : Calculator} (h : Clean c) {k : Key} (hk : k ∈ Keypad.keys) :
    Clean (c.press k) := by
  cases k with
  | clear => exact ⟨fun x hx => (by cases hx), fun x hx => (by cases hx)⟩
  | equals => exact clean_equals h.entry
  | delete =>
    refine ⟨?_, fun x hx => by cases hx⟩
    intro x hx
    have hentry : (c.press .delete).entry.toList = c.entry.toList.dropLast := String.toList_ofList
    rw [hentry] at hx
    exact h.entry x (List.mem_of_mem_dropLast hx)
  | insert text =>
    refine ⟨?_, fun x hx => by cases hx⟩
    intro x hx
    have hinserted := Keypad.isEntryCharacter_inserted hk
    simp only [Calculator.press, insert, String.toList_append, List.mem_append] at hx
    rcases hx with hx | hx
    · split at hx
      · cases hx
      · exact h.entry x hx
    · exact hinserted x hx

theorem clean_run {keys : List Key} (h : ∀ k ∈ keys, k ∈ Keypad.keys) :
    Clean (initial.run keys) := by
  induction keys using List.reverseRecOn with
  | nil => exact ⟨fun x hx => (by cases hx), fun x hx => (by cases hx)⟩
  | append_singleton keys k ih =>
    rw [run_concat]
    exact (ih fun k hk => h k (List.mem_append_left _ hk)).press (h k (by simp))

/-- **The entry of the window.** After any frames the entry holds digits, points, operators,
parentheses, percent signs and lower-case letters only. So no evaluation, the one that was made last
or one that is still to come, refuses any other character than the percent sign. -/
theorem entry_of_frames {frames : List Frame} (h : ∀ f ∈ frames, f.OnKeypad) :
    (∀ c ∈ (Window.initial.run frames).calculator.entry.toList, isEntryCharacter c) ∧
      (∀ c, (Window.initial.run frames).calculator.failure = some (.invalidCharacter c) →
        c = '%') ∧
      ∀ c, evaluate (Window.initial.run frames).calculator.entry = .error (.invalidCharacter c) →
        c = '%' := by
  have hclean : Clean (Window.initial.run frames).calculator := by
    rw [Window.calculator_run]
    exact clean_run (Frame.mem_keypad_of_mem_flatMap h)
  exact ⟨hclean.entry, hclean.failure, fun c hc => eq_percent_of_evaluate hclean.entry hc⟩

end

/-- A percent sign without a numeral, typed behind a character that the keyboard does not accept, and
a function of which the parenthesis is deleted. -/
def percentFrames : List Frame :=
  [.keyboard ⟨["é%"], false, false, false⟩, .button "sqrt", .button "DEL",
    .keyboard ⟨[], false, false, true⟩]

theorem entry_of_frames_percent : (∀ f ∈ percentFrames, f.OnKeypad) ∧
    (Window.initial.run percentFrames).calculator =
      ⟨"%sqrt", some (.invalidCharacter '%'), none, true⟩ ∧
    (∀ c ∈ "%sqrt".toList, isEntryCharacter c) ∧
    ∀ c, evaluate "%sqrt" = .error (.invalidCharacter c) → c = '%' := by
  have hframes : ∀ f ∈ percentFrames, f.OnKeypad := by
    simp [percentFrames, Frame.OnKeypad, Keypad.labels, Keypad.mainRows, Keypad.functionRows]
  have hrun : (Window.initial.run percentFrames).calculator =
      ⟨"%sqrt", some (.invalidCharacter '%'), none, true⟩ := by decide +kernel
  obtain ⟨hentry, -, hevaluate⟩ := entry_of_frames hframes
  rw [hrun] at hentry hevaluate
  exact ⟨hframes, hrun, hentry, hevaluate⟩

end Calculator

end PocketCalc
