import PocketCalc.Proofs.Calculator.Mode

/-!
# The keyboard and the buttons

Whatever the keyboard does in one frame can be done with the buttons, one click after the other: "C"
for Escape, the button of each typed character that the keyboard accepts, "DEL" for Backspace, "="
for Enter (`Keyboard.clicks`). The window is the same after the clicks as after the frame, from every
window, so a whole session can be replayed with clicks alone (`keyboard_replayed`).

The two ways meet in the keys: a button has the key of its label, and the label of a typed character
is the character, which is not the label of one of the acting keys.
-/

namespace PocketCalc

/-! ## From the keyboard to the buttons -/

/-- The labels of the buttons that do what the keyboard did, in the order in which it counts. Other
characters than the accepted ones do nothing, even "C" and "=". -/
def Keyboard.labels (k : Keyboard) : List String :=
  (if k.escape then ["C"] else []) ++
    ((k.typed.flatMap String.toList).filter (· ∈ Key.typeable)).map Char.toString ++
    (if k.backspace then ["DEL"] else []) ++
    (if k.enter then ["="] else [])

/-- The clicks that do what the keyboard did. -/
def Keyboard.clicks (k : Keyboard) : List Frame := k.labels.map Frame.button

/-- A frame in clicks: a frame of the keyboard is replaced, a click stays. -/
def Frame.clicks : Frame → List Frame
  | keyboard k => k.clicks
  | button label => [button label]
  | panelHeader => [panelHeader]

/-- Only buttons that the keypad has are clicked. -/
theorem Keyboard.mem_labels {k : Keyboard} {label : String} (h : label ∈ k.labels) :
    label ∈ Keypad.labels := by
  have hclear : "C" ∈ Keypad.labels := by decide
  have hdelete : "DEL" ∈ Keypad.labels := by decide
  have hequals : "=" ∈ Keypad.labels := by decide
  simp only [Keyboard.labels, List.mem_append, List.mem_ite_nil_right, List.mem_singleton,
    List.mem_map, List.mem_filter, decide_eq_true_eq] at h
  rcases h with ((⟨-, rfl⟩ | ⟨c, ⟨-, hc⟩, rfl⟩) | ⟨-, rfl⟩) | ⟨-, rfl⟩
  · exact hclear
  · exact Keypad.typeable_mem_labels hc
  · exact hdelete
  · exact hequals

/-! ## Keys -/

/-- The button of a character inserts it: no single character is the label of an acting key but "C"
and "=", and these cannot be typed. -/
theorem Key.ofLabel_toString {c : Char} (h : c ∈ Key.typeable) :
    Key.ofLabel c.toString = .insert c.toString := by
  have hall : (Key.typeable.all fun d => Key.ofLabel d.toString == .insert d.toString) = true := by
    decide
  exact eq_of_beq (List.all_eq_true.mp hall c h)

/-- Typing a text and clicking the buttons of its characters press the same keys. The induction is
on the text, whose characters are accepted one by one. -/
theorem Key.map_ofLabel_typed (text : List Char) :
    ((text.filter (· ∈ Key.typeable)).map Char.toString).map Key.ofLabel =
      text.filterMap Key.ofTyped? := by
  induction text with
  | nil => rfl
  | cons c text ih =>
    by_cases h : c ∈ Key.typeable
    · have htyped : Key.ofTyped? c = some (.insert c.toString) := if_pos h
      rw [List.filter_cons_of_pos (by simpa using h), List.map_cons, List.map_cons, ih,
        List.filterMap_cons_some htyped, Key.ofLabel_toString h]
    · have htyped : Key.ofTyped? c = none := if_neg h
      rw [List.filter_cons_of_neg (by simpa using h), ih, List.filterMap_cons_none htyped]

/-- The buttons have the keys of the keyboard, in the same order. -/
theorem Keyboard.map_ofLabel_labels (k : Keyboard) : k.labels.map Key.ofLabel = k.keys := by
  unfold Keyboard.labels Keyboard.keys
  rw [List.map_append, List.map_append, List.map_append, Key.map_ofLabel_typed]
  cases k.escape <;> cases k.backspace <;> cases k.enter <;> rfl

/-! ## The window -/

namespace Window

variable [Elementary]

/-- Clicking buttons presses their keys and leaves the panel as it is. -/
theorem run_buttons (w : Window) (labels : List String) :
    w.run (labels.map Frame.button) =
      ⟨w.calculator.run (labels.map Key.ofLabel), w.panelOpen⟩ := by
  induction labels generalizing w with
  | nil => rfl
  | cons label labels ih =>
    have hstep : w.step (.button label) = ⟨w.calculator.press (.ofLabel label), w.panelOpen⟩ := by
      simp [step, Frame.keys, Frame.togglesPanel, Calculator.run]
    have hrun : w.run ((label :: labels).map Frame.button) =
        (w.step (.button label)).run (labels.map Frame.button) := rfl
    rw [hrun, ih, hstep]
    rfl

/-- A frame of the keyboard is its clicks. -/
theorem step_keyboard (w : Window) (k : Keyboard) : w.step (.keyboard k) = w.run k.clicks := by
  rw [Keyboard.clicks, run_buttons, Keyboard.map_ofLabel_labels]
  simp [step, Frame.keys, Frame.togglesPanel]

theorem step_eq_run_clicks (w : Window) (f : Frame) : w.step f = w.run f.clicks := by
  cases f with
  | keyboard k => exact step_keyboard w k
  | button label | panelHeader => rfl

theorem run_append (w : Window) (frames others : List Frame) :
    w.run (frames ++ others) = (w.run frames).run others :=
  List.foldl_append

/-- **The keyboard replayed with the mouse.** From every window, what a frame of the keyboard leaves,
with the texts on the screen and in the panel, is what its clicks leave one after the other, and all
of them hit a button of the keypad. So every session leaves what the session leaves in which each
frame of the keyboard is replaced by its clicks. -/
theorem keyboard_replayed (w : Window) :
    (∀ k : Keyboard, (∀ label ∈ k.labels, label ∈ Keypad.labels) ∧
      w.step (.keyboard k) = w.run (k.labels.map Frame.button) ∧
      (w.step (.keyboard k)).screen = (w.run (k.labels.map Frame.button)).screen ∧
      (w.step (.keyboard k)).panel = (w.run (k.labels.map Frame.button)).panel) ∧
    ∀ frames : List Frame, w.run frames = w.run (frames.flatMap Frame.clicks) := by
  constructor
  · intro k
    have hstep := step_keyboard w k
    rw [Keyboard.clicks] at hstep
    exact ⟨fun label => Keyboard.mem_labels, hstep, congrArg screen hstep, congrArg panel hstep⟩
  · intro frames
    induction frames generalizing w with
    | nil => rfl
    | cons f frames ih =>
      rw [List.flatMap_cons, run_append, ← step_eq_run_clicks]
      exact ih (w.step f)

/-! Texts are joined before they are filtered, and Enter counts last. -/

example : (Keyboard.mk ["1é", "C=+2"] true false true).labels = ["C", "1", "+", "2", "="] := by
  decide

end Window

end PocketCalc
