-- The built-in operators. The special ones see their operands unevaluated, the
-- arithmetic ones see values.
namespace Overscope

/-- The numeric operators. -/
inductive Operator where
  | add
  | sub
  | mul
  | div
deriving DecidableEq, Repr

/-- A built-in operator. It is bound by name in the base environment, and can
stand in the head of a call itself, where no binding can hide it. -/
inductive Primitive where
  /-- Builds a formula that keeps the calling environment. -/
  | tilde
  /-- Gives its operand back as code. -/
  | quote
  /-- Reads a member by name. -/
  | member
  | arithmetic (op : Operator)
deriving DecidableEq, Repr

def Operator.symbol : Operator → String
  | .add => "+"
  | .sub => "-"
  | .mul => "*"
  | .div => "/"

namespace Primitive

/-- The name under which the base environment binds the operator. -/
def symbol : Primitive → String
  | .tilde => "~"
  | .quote => "quote"
  | .member => "$"
  | .arithmetic op => op.symbol

/-- Every operator, in the order in which the base environment binds them. -/
def all : List Primitive :=
  [.tilde, .quote, .arithmetic .add, .arithmetic .sub, .arithmetic .mul, .arithmetic .div, .member]

def isArithmetic : Primitive → Bool
  | .arithmetic _ => true
  | _ => false

/-- A special operator receives its operands unevaluated. -/
def isSpecial (p : Primitive) : Bool := !p.isArithmetic

/-- The operator that a script spells with the given symbol. -/
def ofSymbol? (s : String) : Option Primitive := all.find? (·.symbol = s)

end Primitive

end Overscope
