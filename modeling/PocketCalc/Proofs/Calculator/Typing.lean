import PocketCalc.Proofs.Calculator.Mode
import PocketCalc.Proofs.Token.ListText

/-!
# What is typed is what is computed

After the calculator is cleared, keys spell a text: a label is written at the end of it, the label of
a function with its parenthesis, and a deletion takes off the last character (`spelled`). While
nothing is evaluated the entry is this text (`run_spelled`), so the evaluation behind it is that of
the text, whatever happened before the calculator was cleared (`typed_is_computed`).
-/

namespace PocketCalc.Calculator

/-- The text after a key. -/
def spell (text : List Char) : Key → List Char
  | .insert label =>
    text ++ label.toList ++ if label ∈ UnaryFunction.all.map UnaryFunction.name then ['('] else []
  | .delete => text.dropLast
  | .clear | .equals => text

/-- The text that keys spell. -/
def spelled (keys : List Key) : String := String.ofList (keys.foldl spell [])

/-- The keys that spell neither clear nor evaluate. -/
def Spells (keys : List Key) : Prop := ∀ k ∈ keys, k ≠ .clear ∧ k ≠ .equals

instance (keys : List Key) : Decidable (Spells keys) :=
  inferInstanceAs (Decidable (∀ k ∈ keys, k ≠ .clear ∧ k ≠ .equals))

/-- A calculator in which a text has been typed since it was cleared. -/
def entering (text : List Char) : Calculator := ⟨String.ofList text, none, none, false⟩

/-- The calculator `c` shows what the evaluation of a text leaves. -/
structure Answers [Elementary] (text : String) (c : Calculator) : Prop where
  success : ∀ v, evaluate text = .ok v →
    c.entry = Decimal.display v ∧ c.display = Decimal.display v ∧ c.message = "" ∧
      ∃ r, Postfix.ofText text = .ok r ∧ c.explanation =
        ⟨Token.listText (Token.tokens text.toList), Token.listText r, Decimal.display v⟩
  failure : ∀ e, evaluate text = .error e →
    c.entry = text ∧ c.display = "Erreur" ∧ c.message = e.message ∧ c.explanation = ⟨"", "", ""⟩

/-! ## Spelling -/

theorem mem_names_iff (label : String) :
    label ∈ UnaryFunction.all.map UnaryFunction.name ↔ isFunctionName label = true := by
  rw [isFunctionName, UnaryFunction.ofName?, List.find?_isSome, List.mem_map]
  simp only [beq_iff_eq]

theorem toList_inserted (label : String) : (inserted label).toList =
    label.toList ++ if label ∈ UnaryFunction.all.map UnaryFunction.name then ['('] else [] := by
  simp only [mem_names_iff, inserted]
  split <;> simp

section

variable [Elementary]

/-- A key that spells changes the text and nothing else. -/
theorem press_entering (text : List Char) {k : Key} (hclear : k ≠ .clear) (hequals : k ≠ .equals) :
    (entering text).press k = entering (spell text k) := by
  cases k with
  | clear => exact absurd rfl hclear
  | equals => exact absurd rfl hequals
  | delete => simp [press, delete, entering, spell]
  | insert label =>
    have hentry : String.ofList text ++ inserted label =
        String.ofList (spell text (.insert label)) := by
      rw [← String.toList_inj, String.toList_append, toList_inserted, String.toList_ofList,
        String.toList_ofList, spell, List.append_assoc]
    simp only [press, insert, entering, Bool.false_and, if_neg Bool.false_ne_true, hentry]

theorem run_entering (text : List Char) {keys : List Key} (h : Spells keys) :
    (entering text).run keys = entering (keys.foldl spell text) := by
  induction keys generalizing text with
  | nil => rfl
  | cons k keys ih =>
    obtain ⟨hclear, hequals⟩ := h k List.mem_cons_self
    have hrun : (entering text).run (k :: keys) = ((entering text).press k).run keys := rfl
    rw [hrun, press_entering text hclear hequals, ih _ fun k hk => h k (List.mem_cons_of_mem _ hk)]
    rfl

/-- While nothing is evaluated the entry is the text that is spelled. -/
theorem run_spelled {keys : List Key} (h : Spells keys) :
    initial.run keys = ⟨spelled keys, none, none, false⟩ := by
  have hinitial : initial = entering [] := rfl
  rw [hinitial, run_entering [] h]
  rfl

/-! ## Evaluating -/

/-- An evaluation of the entry is shown. -/
theorem answers_equals (c : Calculator) : Answers c.entry c.equals where
  success := by
    intro v hv
    obtain ⟨w, hw, hresult⟩ := Working.ofText_of_ok hv
    obtain ⟨htokens, r, hr, hconverted⟩ := Token.ofText_of_working hw
    rw [equals_of_stages hw]
    have hdisplay := display_of_entry (c := ⟨w.result, none, some w, true⟩) rfl
      (by simpa only [hresult] using Decimal.display_ne_empty v)
    refine ⟨hresult, hdisplay.trans hresult, rfl, r, hr, ?_⟩
    rw [← htokens, ← hconverted, ← hresult]
    rfl
  failure := by
    intro e he
    rw [equals_of_error he]
    exact ⟨rfl, rfl, rfl, rfl⟩

/-- Clearing leaves nothing of what was there. -/
theorem run_clear (c : Calculator) (keys : List Key) : c.run (.clear :: keys) = initial.run keys := rfl

/-- **What is typed is what is computed.** After clearing, typing and deleting, an evaluation shows
the value or the error of the text that was spelled, in every calculator and after every frame, and
nothing is left of what was there before. -/
theorem typed_is_computed {keys : List Key} (h : Spells keys) :
    Answers (spelled keys) (initial.run (keys ++ [Key.equals])) ∧
      (∀ c : Calculator,
        c.run (Key.clear :: (keys ++ [Key.equals])) = initial.run (keys ++ [Key.equals])) ∧
      ∀ (w : Window) (frames : List Frame) (before : List Key),
        frames.flatMap Frame.keys = before ++ Key.clear :: (keys ++ [Key.equals]) →
          (w.run frames).calculator = initial.run (keys ++ [Key.equals]) := by
  refine ⟨?_, fun c => run_clear c _, ?_⟩
  · have hequals : initial.run (keys ++ [Key.equals]) = (initial.run keys).equals :=
      run_concat initial keys .equals
    rw [hequals, run_spelled h]
    exact answers_equals ⟨spelled keys, none, none, false⟩
  · intro w frames before hframes
    rw [Window.calculator_run, hframes, run_append, run_clear]

end

/-- A failure, then Escape in one frame with a digit and Backspace, a function, and Enter in one frame
with a character that the keyboard does not accept. -/
def typingFrames : List Frame :=
  [.button "5", .button "/", .button "0", .button "=", .keyboard ⟨["8"], true, true, false⟩,
    .panelHeader, .button "sqrt", .keyboard ⟨["9é)"], false, false, true⟩]

theorem typed_is_computed_sqrt :
    Spells [.insert "8", .delete, .insert "sqrt", .insert "9", .insert ")"] ∧
    spelled [.insert "8", .delete, .insert "sqrt", .insert "9", .insert ")"] = "sqrt(9)" ∧
    evaluate "sqrt(9)" = .ok 3 ∧
    (Window.initial.run typingFrames).calculator.entry = "3" ∧
    (Window.initial.run typingFrames).calculator.display = "3" ∧
    (Window.initial.run typingFrames).calculator.message = "" := by
  have hkeys : Spells [.insert "8", .delete, .insert "sqrt", .insert "9", .insert ")"] := by decide
  have hspelled :
      spelled [.insert "8", .delete, .insert "sqrt", .insert "9", .insert ")"] = "sqrt(9)" := by
    decide +kernel
  have hvalue : evaluate "sqrt(9)" = .ok 3 := by with_unfolding_all rfl
  have hdisplay : Decimal.display 3 = "3" := by decide +kernel
  obtain ⟨hshows, -, hframes⟩ := typed_is_computed hkeys
  rw [hspelled] at hshows
  obtain ⟨hentry, hscreen, hmessage, -⟩ := hshows.success 3 hvalue
  rw [hframes Window.initial typingFrames
    [.insert "5", .insert "/", .insert "0", .equals] (by decide +kernel)]
  exact ⟨hkeys, hspelled, hvalue, hentry.trans hdisplay, hscreen.trans hdisplay, hmessage⟩

end PocketCalc.Calculator
