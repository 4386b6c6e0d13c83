import PocketCalc.Decimal.Text

/-!
# Operators and tokens

The five binary operators come with their symbols and the two properties that decide the shape of an
expression: precedence and associativity.

Tokens are the words of an expression. A number carries its value, so a percentage is already
divided by a hundred; a character that starts no other token is a token of its own, to be refused
later.
-/

namespace PocketCalc

/-! ## Operators -/

/-- A binary operator. -/
inductive Operator where
  | add | sub | mul | div | pow
deriving DecidableEq, Repr

namespace Operator

/-- The character an operator is written with. -/
def symbol : Operator → Char
  | add => '+'
  | sub => '-'
  | mul => '*'
  | div => '/'
  | pow => '^'

/-- The operator a character stands for. -/
def ofChar? : Char → Option Operator
  | '+' => some add
  | '-' => some sub
  | '*' => some mul
  | '/' => some div
  | '^' => some pow
  | _ => none

/-- An operator of higher precedence binds its operands first. -/
def precedence : Operator → Nat
  | add | sub => 2
  | mul | div => 3
  | pow => 4

/-- Whether equal operators in a row group from the right; only powers do. -/
def isRightAssociative : Operator → Bool
  | pow => true
  | _ => false

@[simp] theorem ofChar?_symbol (op : Operator) : ofChar? op.symbol = some op := by
  cases op <;> rfl

theorem ofChar?_eq_some_iff {c : Char} {op : Operator} : ofChar? c = some op ↔ c = op.symbol := by
  constructor
  · intro h
    unfold ofChar? at h
    split at h <;> simp_all <;> subst h <;> rfl
  · rintro rfl
    exact ofChar?_symbol op

end Operator

/-! ## Tokens -/

/-- A word of an expression. -/
inductive Token where
  | number (value : Float)
  | operator (op : Operator)
  | leftParen
  | rightParen
  | function (name : String)
  /-- The end of the text. -/
  | endMark
  | invalid (c : Char)
deriving DecidableEq

namespace Token

/-- The text of a token. -/
def text : Token → String
  | number value => Decimal.plain value
  | operator op => op.symbol.toString
  | leftParen => "("
  | rightParen => ")"
  | function name => name
  | endMark => "⊣"
  | invalid c => "?" ++ c.toString

/-- The text of a list of tokens, one blank between neighbours. -/
def listText (ts : List Token) : String := " ".intercalate (ts.map text)

end Token

end PocketCalc
