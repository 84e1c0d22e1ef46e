-- Arithmetic on values. Two integers give an exact integer or an error, except
-- that a quotient is a float; any other pair of numbers is worked out in floats.
import Overscope.Code.Basic
import Overscope.EvalError

namespace Overscope

/-- A number as a float. -/
def Value.numeric : Value → Except EvalError Float
  | .int n => .ok n.toFloat
  | .float x => .ok x
  | v => .error (.typeMismatch "numeric" v.typeName)

/-- An exact result, if it fits the range of integers. -/
def exactInt (operation : String) (n : Int) : Except EvalError Value :=
  if Int64.minValue.toInt ≤ n ∧ n ≤ Int64.maxValue.toInt then .ok (.int (.ofInt n))
  else .error (.integerOverflow operation)

def Value.negate : Value → Except EvalError Value
  | .int n => exactInt "negation" (-n.toInt)
  | v => v.numeric.map fun x => .float (-x)

namespace Operator

/-- The operator on two integers. -/
def onInts (op : Operator) (a b : Int64) : Except EvalError Value :=
  match op with
  | .add => exactInt op.symbol (a.toInt + b.toInt)
  | .sub => exactInt op.symbol (a.toInt - b.toInt)
  | .mul => exactInt op.symbol (a.toInt * b.toInt)
  | .div => if b = 0 then .error .divisionByZero else .ok (.float (a.toFloat / b.toFloat))

def onFloats (op : Operator) (a b : Float) : Float :=
  match op with
  | .add => a + b
  | .sub => a - b
  | .mul => a * b
  | .div => a / b

/-- The operator between two values. The left one is checked first. -/
def between (op : Operator) (left right : Value) : Except EvalError Value :=
  match left, right with
  | .int a, .int b => op.onInts a b
  | _, _ => do
    let a ← left.numeric
    let b ← right.numeric
    .ok (.float (op.onFloats a b))

/-- The operator on any number of values: two, or one for a sign. -/
def apply (op : Operator) : List Value → Except EvalError Value
  | [v] => match op with
    | .add => v.numeric.map fun _ => v
    | .sub => v.negate
    | _ => .error (.wrongArgCount op.symbol "1 or 2 arguments" 1)
  | [left, right] => op.between left right
  | vs => .error (.wrongArgCount op.symbol "1 or 2 arguments" vs.length)

end Operator

end Overscope
