import PocketCalc.CalcError
import PocketCalc.Token.Reading

/-!
# Postfix order

`Postfix.ofTokens` orders an expression so that every operator and every function follows its
operands and no parenthesis is left. What still waits for an operand is kept in one list for each
open group, the innermost group apart: an operator releases what binds at least as strongly, but
only inside its own group, and a closing parenthesis releases the whole group and then a function
that stands before it.

A minus sign where an operand is expected is a negation and is written as a subtraction from zero:
the zero comes out at once, and the minus waits with less strength than a power and more than
everything else. The first fault from the left ends the conversion.
-/

namespace PocketCalc.Postfix

/-- What waits for its last operand. -/
inductive Waiting where
  | operator (op : Operator)
  | negation
  | function (name : String)
deriving DecidableEq, Repr

namespace Waiting

/-- What comes out once the last operand is there. -/
def token : Waiting → Token
  | operator op => .operator op
  | negation => .operator .sub
  | function name => .function name

/-- Whether what waits has to come out before the operator `op` can wait on top of it. -/
def yieldsTo (op : Operator) : Waiting → Bool
  | operator top =>
    op.precedence < top.precedence ||
      (op.precedence == top.precedence && !op.isRightAssociative)
  | negation => op != .pow
  | function _ => true

end Waiting

/-- Puts tokens in front of a converted rest. -/
def emit (ts : List Token) : Except CalcError (List Token) → Except CalcError (List Token) :=
  Except.map (ts ++ ·)

/-- The end of an expression: all groups have to be closed, and what waits comes out. -/
def finish (inner : List Waiting) : List (List Waiting) → Except CalcError (List Token)
  | [] => .ok (inner.map Waiting.token)
  | _ :: _ => .error .unmatchedParentheses

/-- The innermost group is closed: what waits in it comes out, then a function before it. The first
part of the result is what comes out, the second what still waits in the enclosing group. -/
def close (inner : List Waiting) : List Waiting → List Token × List Waiting
  | .function name :: enclosing => (inner.map Waiting.token ++ [.function name], enclosing)
  | enclosing => (inner.map Waiting.token, enclosing)

/-- Converts a rest of an expression. `operand` tells whether an operand is expected next, `inner` is
what waits in the innermost group and `outer` what waits in the groups around it. -/
def convert (operand : Bool) (inner : List Waiting) (outer : List (List Waiting)) :
    List Token → Except CalcError (List Token)
  | [] => finish inner outer
  | .endMark :: _ => finish inner outer
  | .invalid c :: _ => .error (.invalidCharacter c)
  | .number v :: ts => emit [.number v] (convert false inner outer ts)
  | .function name :: ts => convert true (.function name :: inner) outer ts
  | .leftParen :: ts => convert true [] (inner :: outer) ts
  | .rightParen :: ts =>
    match outer with
    | [] => .error .unmatchedParentheses
    | enclosing :: outer =>
      emit (close inner enclosing).1 (convert false (close inner enclosing).2 outer ts)
  | .operator op :: ts =>
    if operand && op == .sub then
      emit [.number 0] (convert true (.negation :: inner) outer ts)
    else
      emit ((inner.takeWhile (Waiting.yieldsTo op)).map Waiting.token)
        (convert true (.operator op :: inner.dropWhile (Waiting.yieldsTo op)) outer ts)

/-- The postfix order of an expression. -/
def ofTokens (ts : List Token) : Except CalcError (List Token) := convert true [] [] ts

/-- The postfix order of the expression in a text. -/
def ofText (text : String) : Except CalcError (List Token) := ofTokens (Token.tokens text.toList)

end PocketCalc.Postfix
