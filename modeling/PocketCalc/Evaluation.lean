import PocketCalc.Arithmetic
import PocketCalc.Postfix

/-!
# Evaluating an expression

From a text to its value: tokens, postfix order, stack machine. The first error of these stages is
the answer. `Working.ofText` keeps the texts of the stages of a successful evaluation.

The stack machine runs tokens in postfix order on a stack of numbers, the top first: a number is
pushed, an operator takes its right operand and then its left one, a function its argument.
Parentheses, end marks and invalid characters do nothing. A calculation has to leave exactly one
number.
-/

namespace PocketCalc.StackMachine

variable [Elementary]

/-- Runs one token. -/
def step (stack : List Float) : Token → Except CalcError (List Float)
  | .number value => .ok (value :: stack)
  | .operator op =>
    match stack with
    | right :: left :: rest => (op.apply left right).map (· :: rest)
    | _ => .error (.missingOperands op.symbol)
  | .function name =>
    match stack with
    | x :: rest => (applyNamed name x).map (· :: rest)
    | [] => .error (.missingArgument name)
  | .leftParen | .rightParen | .endMark | .invalid _ => .ok stack

/-- Runs tokens one after the other, up to the first error. -/
def run (stack : List Float) : List Token → Except CalcError (List Float)
  | [] => .ok stack
  | t :: ts => (step stack t).bind fun stack => run stack ts

/-- The only number on a stack. -/
def result : List Float → Except CalcError Float
  | [value] => .ok value
  | _ => .error .malformedExpression

/-- The value of a list of tokens in postfix order. -/
def evaluate (ts : List Token) : Except CalcError Float := (run [] ts).bind result

/-- A calculation has a value exactly if its run leaves this value alone. -/
theorem evaluate_eq_ok {ts : List Token} {v : Float} :
    evaluate ts = .ok v ↔ run [] ts = .ok [v] := by
  unfold evaluate
  cases run [] ts with
  | error e => simp [Except.bind]
  | ok stack => rcases stack with _ | ⟨w, _ | ⟨u, rest⟩⟩ <;> simp [Except.bind, result]

/-- Running two lists is running one after the other. -/
theorem run_append (stack : List Float) (ts us : List Token) :
    run stack (ts ++ us) = (run stack ts).bind fun stack => run stack us := by
  induction ts generalizing stack with
  | nil => rfl
  | cons t ts ih =>
    simp only [List.cons_append, run]
    cases step stack t with
    | error e => rfl
    | ok stack => exact ih stack

/-! ## The height of the stack -/

/-- The height of the stack after a token, known from the height before it, or none when the stack
is too low for the token. -/
def heightAfter (n : Nat) : Token → Option Nat
  | .number _ => some (n + 1)
  | .operator _ => if 2 ≤ n then some (n - 1) else none
  | .function _ => if 1 ≤ n then some n else none
  | .leftParen | .rightParen | .endMark | .invalid _ => some n

/-- The height after several tokens. -/
def height (n : Nat) : List Token → Option Nat
  | [] => some n
  | t :: ts => (heightAfter n t).bind fun n => height n ts

/-- A step that succeeds leaves the height that was known before it. -/
theorem heightAfter_of_step {stack rest : List Float} {t : Token} (h : step stack t = .ok rest) :
    heightAfter stack.length t = some rest.length := by
  unfold step at h
  split at h
  · cases h
    rfl
  · next op =>
    split at h
    · next r l s =>
      cases ha : op.apply l r <;> simp_all [Except.map]
      subst h
      simp [heightAfter]
    · simp at h
  · next name =>
    split at h
    · next x s =>
      cases ha : applyNamed name x <;> simp_all [Except.map]
      subst h
      simp [heightAfter]
    · simp at h
  all_goals cases h; rfl

/-- A run that succeeds leaves the height that the kinds of its tokens tell. -/
theorem height_of_run {stack rest : List Float} {ts : List Token} (h : run stack ts = .ok rest) :
    height stack.length ts = some rest.length := by
  induction ts generalizing stack with
  | nil => cases h; rfl
  | cons t ts ih =>
    simp only [run] at h
    cases hs : step stack t with
    | error e => simp [hs, Except.bind] at h
    | ok s =>
      simp only [hs, Except.bind] at h
      simp only [height, heightAfter_of_step hs, Option.bind_some]
      exact ih h

end PocketCalc.StackMachine

namespace PocketCalc

/-! ## From a text to its value -/

variable [Elementary]

/-- The value of the expression in a text. -/
def evaluate (text : String) : Except CalcError Float :=
  (Postfix.ofText text).bind StackMachine.evaluate

/-- The value of a text that is converted. -/
theorem evaluate_of_ofText {text : String} {r : List Token} (h : Postfix.ofText text = .ok r) :
    evaluate text = StackMachine.evaluate r := by
  rw [evaluate, h]
  rfl

/-- Only a text that is converted has a value. -/
theorem exists_ofText_of_evaluate {text : String} {v : Float} (h : evaluate text = .ok v) :
    ∃ r, Postfix.ofText text = .ok r ∧ StackMachine.evaluate r = .ok v := by
  cases hr : Postfix.ofText text with
  | error e =>
    rw [evaluate, hr] at h
    cases h
  | ok r => exact ⟨r, rfl, (evaluate_of_ofText hr).symm.trans h⟩

/-- The stages of a successful evaluation, as texts. -/
structure Working where
  tokens : String
  postfixOrder : String
  result : String
deriving DecidableEq, Repr

namespace Working

/-- The stages of the evaluation of a text. -/
def ofText (text : String) : Except CalcError Working :=
  (Postfix.ofText text).bind fun converted =>
    (StackMachine.evaluate converted).map fun value =>
      { tokens := Token.listText (Token.tokens text.toList)
        postfixOrder := Token.listText converted
        result := Decimal.display value }

end Working

end PocketCalc
