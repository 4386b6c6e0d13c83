import PocketCalc.Evaluation
import PocketCalc.Keypad

/-!
# The calculator

The state between two keys: the entry, the failure of the last evaluation while it is shown, the
working of the last success, and whether a result has just been shown. Right after an evaluation a
digit, a point or a function starts a new entry, while an operator, a parenthesis or a percent sign
goes on from the entry that is there.
-/

namespace PocketCalc

/-- The state of the calculator between two keys. -/
structure Calculator where
  entry : String
  /-- The failure on the screen. -/
  failure : Option CalcError
  /-- The stages of the last evaluation, if it succeeded. -/
  working : Option Working
  /-- Whether an evaluation has not been followed by an entry yet. -/
  justEvaluated : Bool
deriving DecidableEq

namespace Calculator

/-- A calculator that has just been switched on. -/
def initial : Calculator := ⟨"", none, none, false⟩

/-- The text on the screen in place of the entry after a failure. -/
def failureText : String := "Erreur"

/-- The text on the screen. -/
def display (c : Calculator) : String :=
  match c.failure with
  | some _ => failureText
  | none => if c.entry = "" then "0" else c.entry

/-- The message below the screen, empty without a failure. -/
def message (c : Calculator) : String := c.failure.elim "" CalcError.message

/-- The stages that are explained, empty without a success. -/
def explanation (c : Calculator) : Working := c.working.getD ⟨"", "", ""⟩

/-! ## Inserting -/

/-- Whether a text is the name of a function. -/
def isFunctionName (text : String) : Bool := (UnaryFunction.ofName? text).isSome

/-- Whether an insertion right after an evaluation starts a new entry. -/
def startsAnew (text : String) : Bool :=
  text.toList.head?.any Char.isDigit || text == "." || isFunctionName text

/-- Whether an insertion right after an evaluation goes on from the entry that is there. -/
def continues (text : String) : Bool := text.toList.head?.any ("+-*/^()%".toList.contains ·)

/-- What an insertion adds to the entry: a function comes with its opening parenthesis. -/
def inserted (text : String) : String := if isFunctionName text then text ++ "(" else text

/-- Inserts a text at the end of the entry, or as a new entry. -/
def insert (c : Calculator) (text : String) : Calculator :=
  { c with
    entry := (if c.justEvaluated && startsAnew text then "" else c.entry) ++ inserted text
    failure := none
    justEvaluated := c.justEvaluated && !(startsAnew text || continues text) }

/-! ## Keys -/

/-- Takes the last character off the entry. -/
def delete (c : Calculator) : Calculator :=
  { c with entry := String.ofList c.entry.toList.dropLast, failure := none }

variable [Elementary]

/-- Evaluates the entry. A result takes its place; after a failure it stays. -/
def equals (c : Calculator) : Calculator :=
  match Working.ofText c.entry with
  | .ok working => ⟨working.result, none, some working, true⟩
  | .error e => ⟨c.entry, some e, none, true⟩

/-- Presses a key. -/
def press (c : Calculator) : Key → Calculator
  | .clear => initial
  | .delete => c.delete
  | .equals => c.equals
  | .insert text => c.insert text

/-- Presses keys one after the other. -/
def run (c : Calculator) (keys : List Key) : Calculator := keys.foldl press c

end Calculator

end PocketCalc
