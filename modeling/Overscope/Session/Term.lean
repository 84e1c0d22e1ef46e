-- What a script writes: values and code with texts for names, and registers for
-- environments and for values made before.
import Overscope.Code.Basic

namespace Overscope

/-- A head as a script writes it. -/
inductive HeadTerm where
  | symbol (text : String)
  | inlined (p : Primitive)

/-- Where a repeated call puts what it has built so far. -/
inductive Side where
  | left
  | right
deriving DecidableEq, Repr

mutual

/-- An expression as a script writes it. -/
inductive ExprTerm where
  | missing
  | symbol (text : String)
  /-- A symbol with an index of its own, which no text was interned for. -/
  | rawSymbol (index : Nat)
  | const (v : ValueTerm)
  | call (head : HeadTerm) (args : List ExprTerm)
  /-- Starts with `start`, and `count` times replaces what it has by the call of
  the function on it and on `arg`. -/
  | nest (count : Nat) (function : String) (start arg : ExprTerm) (side : Side)

/-- A value as a script writes it. -/
inductive ValueTerm where
  | null
  | missing
  | bool (b : Bool)
  | int (n : Int64)
  | float (x : Float)
  | str (s : String)
  | list (kind : ListKind) (entries : List EntryTerm)
  | code (e : ExprTerm)
  | formula (kind : FormulaKind) (head : HeadTerm) (args : List ExprTerm)
    (env : Option String)
  | env (register : String)
  | builtin (p : Primitive)
  | override (mask top : String)
  | pronoun (source : ValueTerm) (absence : String)
  /-- The quosure that stands for an absent operand. -/
  | missingQuosure
  | quosure (e : ExprTerm) (env : Option String)
  /-- A quoted `~` call. -/
  | tildeCall (args : List ExprTerm)
  | register (name : String)

/-- A list entry as a script writes it. -/
inductive EntryTerm where
  | mk (name : Option String) (value : ValueTerm)

end

end Overscope
