-- Calls. The meaning of a call is made of the meanings of its operands, so none of
-- these definitions is recursive: the operators, the building of formulas by the
-- base `~`, the evaluation of a quosure in an overscope, and the dispatch between
-- them.
import Overscope.Code.Entries
import Overscope.Eval.Arithmetic
import Overscope.Eval.State

namespace Overscope

/-- An operand: its code, and what evaluating it does. -/
structure Operand where
  code : Expr
  run : EnvId → EvalM Value

/-- A call as it is written, either as a call node or as a formula object. -/
structure CallSite where
  head : Head
  operands : List Operand
  /-- The formula object, if the call is one. -/
  object : Option Formula

/-- The code of the operands. -/
def CallSite.args (site : CallSite) : Args := .ofList (site.operands.map Operand.code)

/-! ## Special operators -/

/-- What quoting an expression gives: a constant is its own value. -/
def Expr.quoted : Expr → Value
  | .const v => v
  | e => .code e

/-- The name that the second operand of `$` spells. -/
def Expr.memberName : Expr → EvalM Name
  | .symbol n => pure n
  | .const (.str s) => internName s
  | .const v => .fail (.typeMismatch "member name" v.typeName)
  | .call _ _ => .fail (.typeMismatch "member name" "call")
  | .missing => .fail (.typeMismatch "member name" "missing argument")

/-- What a pronoun reads under a name: the data alone. -/
def DataSource.get? (h : Heap) (source : DataSource) (name : Name) : Option Value :=
  match source with
  | .list _ entries => entries.get? name
  | .env e => h.local? e name

/-- The member of a value. A list or an environment gives null for an absent
name, and a pronoun fails. -/
def Value.member (target : Value) (name : Name) : EvalM Value := do
  match target with
  | .pronoun source absence => match ← .read (source.get? ·.heap name) with
    | some v => pure v
    | none => .fail (.absentFromData absence (← nameText name))
  | .list _ entries => pure ((entries.get? name).getD .null)
  | .env e => .read fun s => (s.heap.local? e name).getD .null
  | v => .fail (.typeMismatch "list, environment or data pronoun" v.typeName)

/-- Evaluates operands from left to right. -/
def evalOperands : List Operand → EnvId → EvalM (List Value)
  | [], _ => pure []
  | op :: ops, env => do
    let v ← op.run env
    let vs ← evalOperands ops env
    pure (v :: vs)

/-- Applies an operator to a call site. A formula object is already what `~`
makes, so `~` gives it back. -/
def CallSite.apply (site : CallSite) (env : EnvId) : Primitive → EvalM Value
  | .tilde =>
    pure (site.object.getD ⟨site.head, site.args, some env, .plain⟩).toValue
  | .quote => match site.operands with
    | [op] => pure op.code.quoted
    | ops => .fail (.wrongArgCount "quote" "1 argument" ops.length)
  | .member => match site.operands with
    | [target, member] => do
      let v ← target.run env
      let name ← member.code.memberName
      v.member name
    | ops => .fail (.wrongArgCount "$" "2 arguments" ops.length)
  | .arithmetic op => do
    let vs ← evalOperands site.operands env
    .ofExcept (op.apply vs)

/-! ## Formulas by the base operator -/

/-- The operator bound to `~` in the base frame. The first answer is kept for
good. -/
def baseTilde : EvalM Primitive := do
  match ← .read State.tilde with
  | some p => pure p
  | none => match ← .read (·.heap.local? .base .tilde) with
    | some (.builtin p) => do
      .update ({ · with tilde := some p })
      pure p
    | some v => .fail (.typeMismatch "primitive `~`" v.typeName)
    | none => .fail (.undefinedFunction "~")

/-- Lets the base `~` build the formula of a call site, past any override. A
formula that has its environment stays as it is. The new formula has the symbol
`~` as its head. -/
def CallSite.toFormula (mode : Mode) (site : CallSite) (env : EnvId) : EvalM Value :=
  match site.object with
  | some ⟨head, args, some e, kind⟩ => pure (.formula head args (some e) kind)
  | _ => do
    let p ← baseTilde
    let v ← nested mode (CallSite.apply { site with head := .inlined p, object := none } env p)
    match v with
    | .formula _ args own kind => pure (.formula (.symbol .tilde) args own kind)
    | v => pure v

/-! ## Quosures in an overscope -/

/-- Whether a frame is a data mask. -/
def Heap.isMask (h : Heap) (e : EnvId) : Bool := h.hasLocal e .maskFlag

/-- Runs `body` with the chain of an overscope continued, above its top frame, by
the scope `target`. In a data mask `.env` names that scope meanwhile. The parent
link is put back first, then `.env`. -/
def withScope {α : Type} (overscope top target : EnvId) (body : EvalM α) : EvalM α := do
  if ← .read (·.heap.isMask overscope) then
    withBinding overscope .env (.env target) (withParent top target body)
  else
    withParent top target body

/-- Fails unless the top frame is on the chain of the overscope. -/
def requireOnChain (overscope top : EnvId) : EvalM Unit := do
  if ← .read (·.heap.hasAncestor overscope top) then pure ()
  else .fail .notAnAncestor

/-- Where a quosure is evaluated: in its own scope, or else in the `.env` of the
overscope. -/
def targetScope (own : Option EnvId) (overscope : EnvId) : EvalM EnvId :=
  match own with
  | some e => pure e
  | none => localEnv overscope .env

/-- Evaluates the right-hand side of a quosure in an overscope, with the scope of
the quosure spliced in above the top frame. An absent right-hand side or a
constant needs no scope. -/
def CallSite.evalQuosure (site : CallSite) (own : Option EnvId) (overscope top : EnvId) :
    EvalM Value :=
  match site.operands.getLast? with
  | none => pure .missing
  | some rhs =>
    if rhs.code.isMissing then pure .missing
    else if !rhs.code.isSymbolic then rhs.run overscope
    else do
      requireOnChain overscope top
      let target ← targetScope own overscope
      withScope overscope top target (rhs.run overscope)

/-- What `~` does in an overscope: a quosure evaluates itself, and any other call
is left to the base `~`. -/
def CallSite.overridden (mode : Mode) (site : CallSite) (overscope top : EnvId) : EvalM Value :=
  match site.object with
  | some ⟨_, _, own, .quosure⟩ => site.evalQuosure own overscope top
  | _ => site.toFormula mode overscope

/-! ## Dispatch -/

/-- What the head of a call can stand for. -/
inductive Callable where
  | builtin (p : Primitive)
  | override (t : Override)

def Value.callable? : Value → Option Callable
  | .builtin p => some (.builtin p)
  | .override t => some (.override t)
  | _ => none

/-- The first callable binding of a head. Others do not hide it. -/
def Head.resolve (head : Head) (env : EnvId) : EvalM Callable := do
  match head with
  | .inlined p => pure (.builtin p)
  | .symbol name =>
    match ← .read fun s => (s.heap.resolveWhere? env name Value.isCallable).bind Value.callable? with
    | some c => pure c
    | none => .fail (.undefinedFunction (← nameText name))

/-- The mask and the top frame of an override, while both are alive. -/
def Override.frames (t : Override) : EvalM (EnvId × EnvId) := do
  if ← .read fun s => s.heap.isLive t.mask && s.heap.isLive t.top then pure (t.mask, t.top)
  else .fail .maskDropped

/-- Evaluates a call in an environment. -/
def CallSite.eval (mode : Mode) (site : CallSite) (env : EnvId) : EvalM Value :=
  nested mode do
    match ← site.head.resolve env with
    | .builtin p => site.apply env p
    | .override t => do
      let (mask, top) ← t.frames
      site.overridden mode mask top

end Overscope
