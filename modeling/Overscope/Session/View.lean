-- What a session writes: values and code with texts for names and labels for
-- environments.
import Overscope.Code.Basic

namespace Overscope

/-- A head as it is written. -/
inductive HeadView where
  | symbol (text : String)
  | inlined (p : Primitive)
deriving DecidableEq, Repr

mutual

/-- An expression as it is written. -/
inductive ExprView where
  | missing
  | symbol (text : String)
  | const (v : ValueView)
  | call (head : HeadView) (args : List ExprView)

/-- A value as it is written. -/
inductive ValueView where
  | null
  | missing
  | bool (b : Bool)
  | int (n : Int64)
  | float (x : Float)
  | str (s : String)
  | list (kind : ListKind) (entries : List EntryView)
  | code (e : ExprView)
  | formula (kind : FormulaKind) (head : HeadView) (args : List ExprView)
    (env : Option String)
  | env (label : String)
  | builtin (p : Primitive)
  | override (mask top : String)
  /-- An override of `~` one of whose frames has died. -/
  | droppedOverride
  | pronoun (absence : String)

/-- A list entry as it is written. -/
inductive EntryView where
  | mk (name : Option String) (value : ValueView)

end

/-! ## Answers -/

/-- The bindings of a frame, sorted by text, and the label of its parent. -/
structure FrameView where
  bindings : List (String × ValueView)
  parent : Option String

/-- What a value is. -/
structure ValueFacts where
  typeName : String
  isCallable : Bool
  isMissing : Bool
  isEnv : Bool
  isFormula : Bool
  isQuosure : Bool

/-- The parts of a formula object. -/
structure FormulaFacts where
  lhs : Option ExprView
  rhs : Option ExprView
  isQuosure : Bool
  isMissing : Bool

/-- What the names of a list are like. -/
structure ListFacts where
  size : Nat
  isEmpty : Bool
  hasNames : Bool
  isDataFrame : Bool
  named : List String
  duplicate : Option String

/-- The answer of one command. -/
inductive Answer where
  | nothing
  | flag (b : Bool)
  | count (n : Nat)
  | text (s : String)
  | texts (ss : List String)
  | label (s : String)
  | labels (ss : List String)
  | name (n : Name)
  | size (count : Nat) (isEmpty : Bool)
  | primitives (ps : List Primitive)
  | limit (n : Nat)
  | value (v : ValueView)
  | frame (f : FrameView)
  | valueFacts (f : ValueFacts)
  | exprFacts (isSymbolic isMissing : Bool)
  | formulaFacts (f : FormulaFacts)
  | listFacts (f : ListFacts)

end Overscope
