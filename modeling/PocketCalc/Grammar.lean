import PocketCalc.Evaluation

/-!
# Expressions

The tree of an expression has numbers at the leaves, functions and operators at the nodes. Its
postorder is a program for the stack machine, and running it is evaluating the tree
(`run_postorder`), the first node that fails included.

`Derives level ts e` says that the tokens `ts` are an expression of a level and that `e` is its
tree. The levels order what binds: sums, products, signed terms, powers and bases. Sums and products
group from the left and powers from the right. A minus sign in front of a signed term negates it, so
it binds closer than a product and less close than a power; functions written in front of such a
minus apply to the whole signed term, and in any other place a function binds closest of all.
-/

namespace PocketCalc

/-! ## Trees -/

/-- The tree of an expression. -/
inductive Expression where
  | number (value : Float)
  | call (name : String) (argument : Expression)
  | binary (op : Operator) (left right : Expression)

namespace Expression

/-- A negation is a subtraction from zero. -/
def negate (e : Expression) : Expression := binary .sub (number 0) e

/-- The tokens of a tree, every node behind its operands. -/
def postorder : Expression → List Token
  | number value => [.number value]
  | call name argument => argument.postorder ++ [.function name]
  | binary op left right => left.postorder ++ right.postorder ++ [.operator op]

variable [Elementary]

/-- The value of a tree; operands are evaluated from left to right, before their node. -/
def evaluate : Expression → Except CalcError Float
  | number value => .ok value
  | call name argument => argument.evaluate.bind (applyNamed name)
  | binary op left right =>
    left.evaluate.bind fun a => right.evaluate.bind fun b => op.apply a b

/-- Running the postorder of a tree puts its value on the stack. -/
theorem run_postorder (e : Expression) (stack : List Float) :
    StackMachine.run stack e.postorder = e.evaluate.map (· :: stack) := by
  induction e generalizing stack with
  | number value => rfl
  | call name argument ih =>
    rw [postorder, StackMachine.run_append, ih, evaluate]
    cases argument.evaluate with
    | error e => rfl
    | ok x => cases h : applyNamed name x <;> simp [Except.map, Except.bind, StackMachine.run,
        StackMachine.step, h]
  | binary op left right ihl ihr =>
    rw [postorder, StackMachine.run_append, StackMachine.run_append, ihl, evaluate]
    cases left.evaluate with
    | error e => rfl
    | ok a =>
      simp only [Except.map, Except.bind]
      rw [ihr]
      cases right.evaluate with
      | error e => rfl
      | ok b => cases h : op.apply a b <;> simp [Except.map, Except.bind, StackMachine.run,
          StackMachine.step, h]

end Expression

/-! ## The infix grammar -/

namespace Grammar

/-- The levels of the grammar, from the loosest to the tightest. -/
inductive Level where
  | sum | product | signed | power | base
deriving DecidableEq, Repr

/-- Applies functions to an expression, the last one first. -/
def callAll (names : List String) (e : Expression) : Expression := names.foldr Expression.call e

/-- The tokens `ts` are an expression of a level with the tree `e`. -/
inductive Derives : Level → List Token → Expression → Prop where
  | sumOfProduct {ts e} : Derives .product ts e → Derives .sum ts e
  | add {ts us l r} : Derives .sum ts l → Derives .product us r →
      Derives .sum (ts ++ .operator .add :: us) (.binary .add l r)
  | sub {ts us l r} : Derives .sum ts l → Derives .product us r →
      Derives .sum (ts ++ .operator .sub :: us) (.binary .sub l r)
  | productOfSigned {ts e} : Derives .signed ts e → Derives .product ts e
  | mul {ts us l r} : Derives .product ts l → Derives .signed us r →
      Derives .product (ts ++ .operator .mul :: us) (.binary .mul l r)
  | div {ts us l r} : Derives .product ts l → Derives .signed us r →
      Derives .product (ts ++ .operator .div :: us) (.binary .div l r)
  /-- A minus sign with the functions written in front of it, if any. -/
  | negate {ts e} (names : List String) : Derives .signed ts e →
      Derives .signed (names.map .function ++ .operator .sub :: ts) (callAll names e.negate)
  | signedOfPower {ts e} : Derives .power ts e → Derives .signed ts e
  | powerOfBase {ts e} : Derives .base ts e → Derives .power ts e
  | pow {ts us l r} : Derives .base ts l → Derives .signed us r →
      Derives .power (ts ++ .operator .pow :: us) (.binary .pow l r)
  | number (value : Float) : Derives .base [.number value] (.number value)
  | group {ts e} : Derives .sum ts e → Derives .base (.leftParen :: ts ++ [.rightParen]) e
  | call {ts e} (name : String) : Derives .base ts e →
      Derives .base (.function name :: ts) (.call name e)

end Grammar

end PocketCalc
