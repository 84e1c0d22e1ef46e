-- The commands of a session. A register is named by a text, and `into` is the
-- register that a result is kept in, if any.
import Overscope.EvalError
import Overscope.Session.Term

namespace Overscope

inductive Command where
  -- Names.
  | intern (text : String)
  | tryIntern (text : String)
  | nameText (index : Nat)
  | internerSize
  | primitives
  -- Frames and their registers.
  | newFrame (parent into : Option String)
  | copyFrame (parent : Option String) (env : String) (into : Option String)
  | alias (env : String) (into : Option String)
  | envOf (value : ValueTerm) (into : Option String)
  | dropEnv (env : String)
  | downgrade (env weak : String)
  | upgrade (weak : String)
  | sameEnv (env other : String)
  -- Bindings.
  | bind (env name : String) (value : ValueTerm)
  | unbind (env name : String)
  | localBinding (env name : String)
  | hasLocal (env name : String)
  | resolve (env name : String)
  | resolveCallable (env name : String)
  | resolveType (env name typeName : String)
  | names (env : String)
  | size (env : String)
  | clear (env : String)
  | frame (env : String)
  -- Chains.
  | parent (env : String) (into : Option String)
  | setParent (env : String) (parent : Option String)
  | chain (env : String)
  | hasAncestor (env other : String)
  -- Guards.
  | swapParent (env parent guard : String)
  | swapBinding (env name : String) (value : ValueTerm) (guard : String)
  | release (guard : String)
  -- Values and code.
  | keep (value : ValueTerm) (into : Option String)
  | dropValue (register : String)
  | valueFacts (value : ValueTerm)
  | valueEq (a b : ValueTerm)
  | exprEq (a b : ExprTerm)
  | exprFacts (e : ExprTerm)
  | formulaFacts (value : ValueTerm)
  | withHead (value : ValueTerm) (head : HeadTerm) (into : Option String)
  | listFacts (value : ValueTerm)
  | listGet (value : ValueTerm) (name : String)
  | pronounGet (value : ValueTerm) (name : String)
  | overrideFrames (value : ValueTerm)
  | raise (e : EvalError)
  -- Evaluation.
  | depth
  | limit
  | eval (e : ExprTerm) (env : String) (into : Option String)
  | evalTilde (call : ValueTerm) (overscope top : String) (into : Option String)
  | toFormula (call : ValueTerm) (env : String) (into : Option String)
  | evalWithData (code data : ValueTerm) (env : String) (into : Option String)
  -- Masks.
  | maskOver (bottom top : Option String) (parent : String) (into : Option String)
  | maskOf (data : ValueTerm) (parent : String) (into : Option String)
  | quosureMask (env : String) (into : Option String)
  | isMask (env : String)
  | stripMask (env : String)

end Overscope
