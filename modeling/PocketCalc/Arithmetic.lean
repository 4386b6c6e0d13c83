import PocketCalc.Binary64
import PocketCalc.CalcError
import PocketCalc.Token.Basic

/-!
# Operations

Every operation looks at its operands before it computes and refuses those for which it is
undefined; what it does not refuse is computed in double precision. Sine, cosine, tangent,
logarithms and powers of doubles are taken from outside: everything that calls one of them is
written for any choice of them, and a program runs with those of its platform.

Angles are given in degrees. The tangent is refused near its poles, the odd multiples of a right
angle: within `poleTolerance` of one the remainder of the angle, measured from a pole, is next to
zero or next to the half turn.
-/

namespace PocketCalc

/-! ## Elementary functions -/

/-- The elementary functions a calculator computes with. -/
class Elementary where
  /-- The sine of an angle in radians. -/
  sin : Float → Float
  /-- The cosine of an angle in radians. -/
  cos : Float → Float
  /-- The tangent of an angle in radians. -/
  tan : Float → Float
  /-- The natural logarithm. -/
  ln : Float → Float
  /-- The decimal logarithm. -/
  log10 : Float → Float
  /-- The power of a base to an exponent. -/
  pow : Float → Float → Float

/-- The elementary functions of the platform. -/
instance platform : Elementary where
  sin := Float.sin
  cos := Float.cos
  tan := Float.tan
  ln := Float.log
  log10 := Float.log10
  pow := Float.pow

/-! ## Operators -/

/-- Applies an operator to its left and right operand. -/
def Operator.apply [Elementary] (op : Operator) (left right : Float) : Except CalcError Float :=
  match op with
  | add => .ok (left + right)
  | sub => .ok (left - right)
  | mul => .ok (left * right)
  | div => if right == 0 then .error .divisionByZero else .ok (left / right)
  | pow =>
    if left == 0 && right < 0 then .error .zeroToNegativePower
    else if left < 0 && !Binary64.isWhole right then .error .negativeToFractionalPower
    else .ok (Elementary.pow left right)

/-! ## Trigonometry in degrees -/

/-- The circle constant. -/
def pi : Float := 3.141592653589793

/-- An angle in radians. The product is formed before the quotient. -/
def toRadians (degrees : Float) : Float := degrees * pi / 180

/-- The distance in degrees within which an angle counts as a pole of the tangent. -/
def poleTolerance : Float := 1e-6

/-- Whether an angle in degrees is a pole of the tangent. -/
def isTangentPole (degrees : Float) : Bool :=
  let r := Binary64.euclideanRemainder (degrees - 90) 180
  r < poleTolerance || 180 - r < poleTolerance

/-- A trigonometric function. -/
inductive Trig where
  | sin | cos | tan
deriving DecidableEq, Repr

namespace Trig

/-- The name a function is written with. -/
def name : Trig → String
  | sin => "sin"
  | cos => "cos"
  | tan => "tan"

/-- All trigonometric functions. -/
def all : List Trig := [sin, cos, tan]

/-- The function with a name. -/
def ofName? (s : String) : Option Trig := all.find? fun f => f.name == s

/-- The value at an angle in degrees. -/
def apply [Elementary] (f : Trig) (degrees : Float) : Except CalcError Float :=
  match f with
  | sin => .ok (Elementary.sin (toRadians degrees))
  | cos => .ok (Elementary.cos (toRadians degrees))
  | tan =>
    if isTangentPole degrees then .error (.undefinedTangent degrees)
    else .ok (Elementary.tan (toRadians degrees))

end Trig

/-! ## Functions -/

/-- A function of one argument. -/
inductive UnaryFunction where
  | sqrt | log | ln
  | trig (f : Trig)
deriving DecidableEq, Repr

namespace UnaryFunction

/-- The name a function is written with. -/
def name : UnaryFunction → String
  | sqrt => "sqrt"
  | log => "log"
  | ln => "ln"
  | trig f => f.name

/-- All functions. -/
def all : List UnaryFunction := [sqrt, log, ln] ++ Trig.all.map trig

/-- The function with a name. -/
def ofName? (s : String) : Option UnaryFunction := all.find? fun f => f.name == s

/-- Applies a function to its argument. -/
def apply [Elementary] (f : UnaryFunction) (x : Float) : Except CalcError Float :=
  match f with
  | sqrt => if x < 0 then .error .negativeSquareRoot else .ok x.sqrt
  | log => if x ≤ 0 then .error (.nonPositiveLogarithm f.name) else .ok (Elementary.log10 x)
  | ln => if x ≤ 0 then .error (.nonPositiveLogarithm f.name) else .ok (Elementary.ln x)
  | trig g => g.apply x

/-- A function is found by its own name. -/
@[simp] theorem ofName?_name (f : UnaryFunction) : ofName? f.name = some f := by
  rcases f with _ | _ | _ | (_ | _ | _) <;> decide

end UnaryFunction

/-- Applies the function with a name to an argument. -/
def applyNamed [Elementary] (name : String) (x : Float) : Except CalcError Float :=
  match UnaryFunction.ofName? name with
  | some f => f.apply x
  | none => .error (.unknownFunction name)

end PocketCalc
