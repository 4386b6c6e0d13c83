import Mathlib.Data.List.Induction
import PocketCalc.Proofs.Calculator.Run
import PocketCalc.Window

/-!
# Right after an evaluation

Right after an evaluation some keys start a new entry. The calculator stays in this mode while only
the delete key is pressed: deleting a character of a result does not end it, so the next digit takes
the place of what was left (`mode_of_frames`).
-/

namespace PocketCalc

/-! ## The keys of the window -/

namespace Keypad

/-- The keys behind the buttons. -/
def keys : List Key := labels.map Key.ofLabel

/-- Every text that a button inserts starts a new entry or goes on from the old one. -/
theorem startsAnew_or_continues {text : String} (h : .insert text ∈ keys) :
    Calculator.startsAnew text = true ∨ Calculator.continues text = true := by
  have hall : (keys.all fun
      | .insert t => Calculator.startsAnew t || Calculator.continues t
      | _ => true) = true := by decide
  simpa using List.all_eq_true.mp hall _ h

theorem insert_mem_keys_of_typeable {c : Char} (h : c ∈ Key.typeable) :
    .insert c.toString ∈ keys := by
  have hall : (Key.typeable.all fun d => keys.contains (.insert d.toString)) = true := by decide
  exact List.contains_iff_mem.mp (List.all_eq_true.mp hall c h)

end Keypad

namespace Frame

/-- The frames that the window can have: a click hits a button of the keypad. -/
def OnKeypad : Frame → Prop
  | button label => label ∈ Keypad.labels
  | _ => True

/-- Whatever is typed or clicked, it is a key of the keypad. -/
theorem mem_keypad_of_mem_keys {f : Frame} (h : f.OnKeypad) {k : Key} (hk : k ∈ f.keys) :
    k ∈ Keypad.keys := by
  have hclear : .clear ∈ Keypad.keys := by decide
  have hdelete : .delete ∈ Keypad.keys := by decide
  have hequals : .equals ∈ Keypad.keys := by decide
  cases f with
  | panelHeader => cases hk
  | button label =>
    rw [List.mem_singleton.mp hk]
    exact List.mem_map_of_mem h
  | keyboard input =>
    simp only [keys, Keyboard.keys, List.mem_append, List.mem_ite_nil_right,
      List.mem_singleton, List.mem_filterMap] at hk
    rcases hk with ((⟨-, rfl⟩ | ⟨c, -, hc⟩) | ⟨-, rfl⟩) | ⟨-, rfl⟩
    · exact hclear
    · unfold Key.ofTyped? at hc
      split at hc
      · next hmem =>
        cases hc
        exact Keypad.insert_mem_keys_of_typeable hmem
      · cases hc
    · exact hdelete
    · exact hequals

theorem mem_keypad_of_mem_flatMap {frames : List Frame} (h : ∀ f ∈ frames, f.OnKeypad) :
    ∀ k ∈ frames.flatMap keys, k ∈ Keypad.keys := by
  intro k hk
  obtain ⟨f, hf, hk⟩ := List.mem_flatMap.mp hk
  exact mem_keypad_of_mem_keys (h f hf) hk

end Frame

/-- Frames press their keys one after the other. -/
theorem Window.calculator_run [Elementary] (w : Window) (frames : List Frame) :
    (w.run frames).calculator = w.calculator.run (frames.flatMap Frame.keys) := by
  induction frames generalizing w with
  | nil => rfl
  | cons f frames ih =>
    rw [List.flatMap_cons, Calculator.run_append]
    exact ih (w.step f)

/-! ## The mode -/

namespace Calculator

/-- The last key that is no deletion evaluates. -/
def EndsInEvaluation (keys : List Key) : Prop :=
  ∃ before n, keys = before ++ .equals :: List.replicate n .delete

theorem endsInEvaluation_concat (keys : List Key) (k : Key) :
    EndsInEvaluation (keys ++ [k]) ↔ k = .equals ∨ (k = .delete ∧ EndsInEvaluation keys) := by
  constructor
  · rintro ⟨before, n, heq⟩
    cases n with
    | zero =>
      obtain ⟨-, hk⟩ := List.append_inj' heq rfl
      exact .inl (List.singleton_inj.mp hk)
    | succ n =>
      rw [List.replicate_succ', ← List.cons_append, ← List.append_assoc] at heq
      obtain ⟨hkeys, hk⟩ := List.append_inj' heq rfl
      exact .inr ⟨List.singleton_inj.mp hk, before, n, hkeys⟩
  · rintro (rfl | ⟨rfl, before, n, rfl⟩)
    · exact ⟨keys, 0, rfl⟩
    · exact ⟨before, n + 1, by simp [List.replicate_succ']⟩

section

variable [Elementary]

theorem justEvaluated_equals (c : Calculator) : c.equals.justEvaluated = true := by
  unfold equals
  split <;> rfl

/-- An evaluation starts the mode, a deletion leaves it as it is, and every other key ends it. -/
theorem justEvaluated_press_iff (c : Calculator) {k : Key} (hk : k ∈ Keypad.keys) :
    (c.press k).justEvaluated = true ↔ k = .equals ∨ (k = .delete ∧ c.justEvaluated = true) := by
  cases k with
  | clear => simp [press, initial]
  | delete => simp [press, delete]
  | equals => simp [press, justEvaluated_equals]
  | insert text =>
    rcases Keypad.startsAnew_or_continues hk with h | h <;> simp [press, insert, h]

theorem justEvaluated_run_iff {keys : List Key} (h : ∀ k ∈ keys, k ∈ Keypad.keys) :
    (initial.run keys).justEvaluated = true ↔ EndsInEvaluation keys := by
  induction keys using List.reverseRecOn with
  | nil => simp [run, initial, EndsInEvaluation]
  | append_singleton keys k ih =>
    have hkeys : ∀ k ∈ keys, k ∈ Keypad.keys := fun k hk => h k (List.mem_append_left _ hk)
    rw [run_concat, justEvaluated_press_iff _ (h k (by simp)), endsInEvaluation_concat, ih hkeys]

theorem entry_press_of_startsAnew {c : Calculator} {text : String} (hmode : c.justEvaluated = true)
    (hnew : startsAnew text = true) : (c.press (.insert text)).entry = inserted text := by
  simp [press, insert, hmode, hnew]

theorem entry_press_of_not {c : Calculator} {text : String}
    (h : ¬ (c.justEvaluated = true ∧ startsAnew text = true)) :
    (c.press (.insert text)).entry = c.entry ++ inserted text := by
  have hkeep : ¬ (c.justEvaluated && startsAnew text) = true := by rwa [Bool.and_eq_true]
  simp only [press, insert, if_neg hkeep]

/-- **The mode of the window.** After any frames the calculator is in the mode of an evaluation
exactly if only deletions followed the last evaluation. In this mode a key that starts a new entry
erases what is there; everything else that a button inserts is added to the entry. -/
theorem mode_of_frames {frames : List Frame} (h : ∀ f ∈ frames, f.OnKeypad) :
    ((Window.initial.run frames).calculator.justEvaluated = true ↔
        EndsInEvaluation (frames.flatMap Frame.keys)) ∧
      ∀ text,
        (EndsInEvaluation (frames.flatMap Frame.keys) → startsAnew text = true →
          ((Window.initial.run frames).calculator.press (.insert text)).entry = inserted text) ∧
        (¬ (EndsInEvaluation (frames.flatMap Frame.keys) ∧ startsAnew text = true) →
          ((Window.initial.run frames).calculator.press (.insert text)).entry =
            (Window.initial.run frames).calculator.entry ++ inserted text) := by
  have hkeys : ∀ k ∈ frames.flatMap Frame.keys, k ∈ Keypad.keys := by
    intro k hk
    obtain ⟨f, hf, hk⟩ := List.mem_flatMap.mp hk
    exact Frame.mem_keypad_of_mem_keys (h f hf) hk
  have hmode : (Window.initial.run frames).calculator.justEvaluated = true ↔
      EndsInEvaluation (frames.flatMap Frame.keys) := by
    rw [Window.calculator_run]
    exact justEvaluated_run_iff hkeys
  refine ⟨hmode, fun text => ⟨?_, ?_⟩⟩
  · intro hends hnew
    exact entry_press_of_startsAnew (hmode.mpr hends) hnew
  · intro hnot
    rw [← hmode] at hnot
    exact entry_press_of_not hnot

end

/-- The frames of a result, of which the last digit is deleted at the keyboard. -/
def deletingFrames : List Frame :=
  [.button "1", .button "2", .button "=", .keyboard ⟨[], false, true, false⟩]

theorem mode_after_deleting : (∀ f ∈ deletingFrames, f.OnKeypad) ∧
    (Window.initial.run deletingFrames).calculator.justEvaluated = true ∧
    ((Window.initial.run deletingFrames).calculator.press (.insert "3")).entry = "3" := by
  have hframes : ∀ f ∈ deletingFrames, f.OnKeypad := by
    simp [deletingFrames, Frame.OnKeypad, Keypad.labels, Keypad.mainRows]
  have hends : EndsInEvaluation (deletingFrames.flatMap Frame.keys) :=
    ⟨[.insert "1", .insert "2"], 1, rfl⟩
  obtain ⟨hmode, hinsert⟩ := mode_of_frames hframes
  exact ⟨hframes, hmode.mpr hends, (hinsert "3").1 hends (by decide)⟩

/-- After a deletion the calculator is still in the mode of the evaluation before it, and the next
digit erases what the deletion left. -/
theorem not_mode_of_last_key :
    ¬ ((Window.initial.run deletingFrames).calculator.justEvaluated = true ↔
        ∃ before, deletingFrames.flatMap Frame.keys = before ++ [.equals]) ∧
      (Window.initial.run deletingFrames).calculator.entry = "1" ∧
      ((Window.initial.run deletingFrames).calculator.press (.insert "3")).entry ≠ "1" ++ "3" := by
  have hrun : (Window.initial.run deletingFrames).calculator =
      ⟨"1", none, some ⟨"12", "12", "12"⟩, true⟩ := by decide +kernel
  rw [hrun]
  refine ⟨?_, rfl, by decide⟩
  intro hiff
  obtain ⟨before, hbefore⟩ := hiff.mp rfl
  have hlast := congrArg List.getLast? hbefore
  rw [List.getLast?_concat] at hlast
  cases hlast

end Calculator

end PocketCalc
