import PocketCalc.Arithmetic

/-!
# Keys

What can be pressed: three keys that act, and keys that insert text. `Key.ofLabel` gives the key
behind the label of a button, `Key.ofTyped?` the key behind a character of the keyboard; the
labels of all buttons stand in `Keypad.labels`, in the order in which they are painted.
-/

namespace PocketCalc

/-- A key of the calculator. -/
inductive Key where
  | clear
  | delete
  | equals
  /-- Inserts a text: a digit, a point, an operator, a parenthesis, a percent sign, a function. -/
  | insert (text : String)
deriving DecidableEq, Repr

namespace Key

/-- The key whose button has a label. -/
def ofLabel : String → Key
  | "C" => clear
  | "DEL" => delete
  | "=" => equals
  | text => insert text

/-- The characters that the keyboard accepts. -/
def typeable : List Char := "0123456789.+-*/^()%".toList

/-- The key behind a typed character, if the keyboard accepts it. -/
def ofTyped? (c : Char) : Option Key :=
  if c ∈ typeable then some (insert c.toString) else none

end Key

namespace Keypad

/-- The rows of the main pad. -/
def mainRows : List (List String) :=
  [["C", "(", ")", "/"],
   ["7", "8", "9", "*"],
   ["4", "5", "6", "-"],
   ["1", "2", "3", "+"],
   ["0", ".", "^", "="]]

/-- The rows of the function pad. -/
def functionRows : List (List String) :=
  [["sqrt", "log", "ln", "DEL"],
   ["sin", "cos", "tan", "%"]]

/-- The labels of all buttons, row by row, the main pad first. -/
def labels : List String := (mainRows ++ functionRows).flatten

/-- Every function has a button with its name. -/
theorem name_mem_labels (f : UnaryFunction) : f.name ∈ labels := by
  rcases f with _ | _ | _ | (_ | _ | _) <;> decide

/-- Every character that the keyboard accepts has a button. -/
theorem typeable_mem_labels {c : Char} (h : c ∈ Key.typeable) : c.toString ∈ labels := by
  have hall : (Key.typeable.all fun d => labels.contains d.toString) = true := by decide
  exact List.contains_iff_mem.mp (List.all_eq_true.mp hall c h)

end Keypad

end PocketCalc
