import PocketCalc.Rational
import PocketCalc.Binary64
import PocketCalc.Decimal.Basic
import PocketCalc.Decimal.Text
import PocketCalc.Decimal.Numeral
import PocketCalc.CalcError
import PocketCalc.Token.Basic
import PocketCalc.Token.Reading
import PocketCalc.Token.Cursor
import PocketCalc.Arithmetic
import PocketCalc.Postfix
import PocketCalc.Evaluation
import PocketCalc.Keypad
import PocketCalc.Calculator
import PocketCalc.Window
import PocketCalc.Grammar
import PocketCalc.Proofs.Grammar.Conversion
import PocketCalc.Proofs.Composition
import PocketCalc.Proofs.Grammar.Acceptance
import PocketCalc.Proofs.Binary64.Fields
import PocketCalc.Proofs.Binary64.Nearest
import PocketCalc.Proofs.Decimal.Recovery
import PocketCalc.Proofs.Decimal.Display
import PocketCalc.Proofs.Repetition
import PocketCalc.Proofs.Decimal.FinalZeros
import PocketCalc.Proofs.Decimal.TwoRoundings
import PocketCalc.Proofs.Decimal.Printed
import PocketCalc.Proofs.Calculator.Coherence
import PocketCalc.Proofs.Calculator.Mode
import PocketCalc.Proofs.Calculator.Continuation
import PocketCalc.Proofs.Binary64.Unsigned
import PocketCalc.Proofs.Decimal.ReadBack
import PocketCalc.Proofs.Postfix.Steps
import PocketCalc.Proofs.Token.Lexemes
import PocketCalc.Proofs.Token.Numerals
import PocketCalc.Proofs.Token.ListText
import PocketCalc.Proofs.Postfix.Faults
import PocketCalc.Proofs.StackMachine.Errors
import PocketCalc.Proofs.Calculator.Entry
import PocketCalc.Proofs.Calculator.Typing
import PocketCalc.Proofs.Postfix.Conservation
import PocketCalc.Proofs.StackMachine.Trees
import PocketCalc.Proofs.Token.Tiling
import PocketCalc.Proofs.Binary64.Rounding
import PocketCalc.Proofs.Binary64.Operations
import PocketCalc.Proofs.Binary64.Comparison
import PocketCalc.Proofs.Binary64.Range
import PocketCalc.Proofs.Binary64.Remainder
import PocketCalc.Proofs.Binary64.TiesToEven
import PocketCalc.Proofs.Trigonometry.Poles
import PocketCalc.Proofs.Arithmetic.Guards
import PocketCalc.Proofs.Postfix.Pulled
import PocketCalc.Proofs.Calculator.Clicks
