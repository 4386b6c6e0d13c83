import PocketCalc.Calculator

/-!
# The window

A calculator with its screen, its buttons and a panel that explains the last success and can be
opened and closed. Input comes in frames: a frame holds what the keyboard did, or one click. Of the
keyboard, Escape counts first, then the characters typed, then Backspace, then Enter.
-/

namespace PocketCalc

/-- What happened on the keyboard during a frame. -/
structure Keyboard where
  typed : List String
  escape : Bool
  backspace : Bool
  enter : Bool

/-- The keys that the keyboard presses, in the order in which they count. -/
def Keyboard.keys (k : Keyboard) : List Key :=
  (if k.escape then [.clear] else []) ++
    (k.typed.flatMap String.toList).filterMap Key.ofTyped? ++
    (if k.backspace then [.delete] else []) ++
    (if k.enter then [.equals] else [])

/-- The input of a frame. -/
inductive Frame where
  | keyboard (k : Keyboard)
  /-- A click on the button with a label. -/
  | button (label : String)
  /-- A click on the header of the panel. -/
  | panelHeader

namespace Frame

/-- The keys that a frame presses. -/
def keys : Frame → List Key
  | keyboard k => k.keys
  | button label => [.ofLabel label]
  | panelHeader => []

/-- Whether a frame opens or closes the panel. -/
def togglesPanel : Frame → Bool
  | panelHeader => true
  | _ => false

end Frame

/-- The window of the calculator. -/
structure Window where
  calculator : Calculator
  panelOpen : Bool

namespace Window

/-- A window that has just been opened. -/
def initial : Window := ⟨.initial, false⟩

/-- The text of the panel's header. -/
def panelTitle : String := "Démarche"

/-- The texts above the buttons: the display, and the message of a failure. These are the texts that
a repaint of the window shows: they are painted before the buttons, so what a click does to them is
painted one frame later. -/
def screen (w : Window) : List String :=
  w.calculator.display :: w.calculator.failure.toList.map CalcError.message

/-- The texts below the header of the panel, as a repaint of the window shows them. Without a success
its fields are empty. -/
def panel (w : Window) : List String :=
  if w.panelOpen then
    let working := w.calculator.explanation
    ["Jetons :", working.tokens, "RPN :", working.postfixOrder, "Résultat :", working.result]
  else []

variable [Elementary]

/-- The window after a frame. -/
def step (w : Window) (f : Frame) : Window :=
  ⟨w.calculator.run f.keys, w.panelOpen ^^ f.togglesPanel⟩

/-- The window after frames one after the other. -/
def run (w : Window) (frames : List Frame) : Window := frames.foldl step w

end Window

end PocketCalc
