import PocketCalc.Decimal.Text

/-!
# Calculation errors

Why a calculation has no result. Each cause belongs to one category and has one message, the text
shown to the user.
-/

namespace PocketCalc

/-- Where in a calculation an error arises. -/
inductive ErrorCategory where
  /-- A character that starts no token. -/
  | lexical
  /-- Parentheses, operands or arguments that do not fit together. -/
  | structural
  /-- An operation that is undefined for its operands. -/
  | domain
  /-- A name that is not a function of the calculator. -/
  | unknownName
deriving DecidableEq, Repr

/-- The cause of a failed calculation. -/
inductive CalcError where
  | invalidCharacter (c : Char)
  | unmatchedParentheses
  /-- An operator, given by its symbol, with fewer than two operands. -/
  | missingOperands (symbol : Char)
  | missingArgument (function : String)
  /-- The calculation leaves no value, or more than one. -/
  | malformedExpression
  | divisionByZero
  | zeroToNegativePower
  | negativeToFractionalPower
  | negativeSquareRoot
  | nonPositiveLogarithm (function : String)
  | undefinedTangent (degrees : Float)
  | unknownFunction (name : String)
deriving DecidableEq

namespace CalcError

/-- The category of a cause. -/
def category : CalcError → ErrorCategory
  | invalidCharacter _ => .lexical
  | unmatchedParentheses | missingOperands _ | missingArgument _ | malformedExpression => .structural
  | divisionByZero | zeroToNegativePower | negativeToFractionalPower | negativeSquareRoot
  | nonPositiveLogarithm _ | undefinedTangent _ => .domain
  | unknownFunction _ => .unknownName

/-- The text shown to the user. -/
def message : CalcError → String
  | invalidCharacter c => "caractère invalide dans l’expression: '" ++ c.toString ++ "'"
  | unmatchedParentheses => "parenthèses non appariées"
  | missingOperands symbol =>
    "pas assez d’opérandes pour l’opérateur '" ++ symbol.toString ++ "'"
  | missingArgument function => "la fonction '" ++ function ++ "' exige un argument"
  | malformedExpression => "syntaxe d’expression invalide"
  | divisionByZero => "division par zéro"
  | zeroToNegativePower => "zéro élevé à une puissance négative"
  | negativeToFractionalPower => "base négative avec un exposant non entier"
  | negativeSquareRoot => "racine carrée d’un nombre négatif"
  | nonPositiveLogarithm function => function ++ " : argument négatif ou nul"
  | undefinedTangent degrees => "tan indéfinie pour " ++ Decimal.plain degrees ++ "°"
  | unknownFunction name => "fonction inconnue: " ++ name

end CalcError

end PocketCalc
