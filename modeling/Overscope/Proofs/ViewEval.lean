-- Evaluation that only looks at the scope graph. It is given a view and hands other
-- views down to its parts; no frame is ever written, so there is nothing to put
-- back. All that goes from one part to the next is what is remembered for good: the
-- names that were issued and the base `~`.
import Overscope.Eval.Basic
import Overscope.Proofs.View

namespace Overscope

/-- What evaluation changes for good. -/
structure Memo where
  interner : Interner
  /-- The operator that base bound to `~` when it was first asked for. -/
  tilde : Option Primitive

/-- How much deeper calls may nest. -/
structure Allowance where
  limit : Nat
  left : Nat
deriving DecidableEq

/-- What is left of the limit inside of `depth` calls. -/
def Mode.allowance (mode : Mode) (depth : Nat) : Option Allowance :=
  mode.limit?.map fun limit => ⟨limit, limit - depth⟩

abbrev ViewM := Attempt Memo EvalError

/-- Runs `body` one call deeper, unless the allowance is used up. -/
def deeper {α : Type} (allowed : Option Allowance) (body : Option Allowance → ViewM α) : ViewM α :=
  match allowed with
  | none => body none
  | some ⟨limit, 0⟩ => .fail (.recursionLimit limit)
  | some ⟨limit, left + 1⟩ => body (some ⟨limit, left⟩)

/-- The text of a name. -/
def textOf (n : Name) : ViewM String := .read (·.interner.text n)

/-- An operand: its code, and what evaluating it under a view gives. -/
structure ViewOperand where
  code : Expr
  run : View → Option Allowance → EnvId → ViewM Value

/-- A call as it is written. -/
structure ViewSite where
  head : Head
  operands : List ViewOperand
  /-- The formula object, if the call is one. -/
  object : Option Formula

/-! ## Operators -/

/-- The name that the second operand of `$` spells. -/
def Expr.memberNameIn : Expr → ViewM Name
  | .symbol n => pure n
  | .const (.str s) => fun m =>
    let (n, interner) := m.interner.intern s
    (.ok n, { m with interner })
  | .const v => .fail (.typeMismatch "member name" v.typeName)
  | .call _ _ => .fail (.typeMismatch "member name" "call")
  | .missing => .fail (.typeMismatch "member name" "missing argument")

/-- What a pronoun reads under a name: the data alone. -/
def DataSource.getIn? (view : View) (source : DataSource) (name : Name) : Option Value :=
  match source with
  | .list _ entries => entries.get? name
  | .env e => view.local? e name

/-- The member of a value. -/
def Value.memberIn (view : View) (target : Value) (name : Name) : ViewM Value :=
  match target with
  | .pronoun source absence => match source.getIn? view name with
    | some v => pure v
    | none => do .fail (.absentFromData absence (← textOf name))
  | .list _ entries => pure ((entries.get? name).getD .null)
  | .env e => pure ((view.local? e name).getD .null)
  | v => .fail (.typeMismatch "list, environment or data pronoun" v.typeName)

/-- Evaluates operands from left to right, all of them under the view of their call. -/
def evalOperandsIn (view : View) (allowed : Option Allowance) (env : EnvId) :
    List ViewOperand → ViewM (List Value)
  | [] => pure []
  | op :: ops => do
    let v ← op.run view allowed env
    let vs ← evalOperandsIn view allowed env ops
    pure (v :: vs)

namespace ViewSite

/-- Applies an operator to a call. -/
def applyIn (site : ViewSite) (view : View) (allowed : Option Allowance) (env : EnvId) :
    Primitive → ViewM Value
  | .tilde =>
    pure (site.object.getD
      ⟨site.head, .ofList (site.operands.map ViewOperand.code), some env, .plain⟩).toValue
  | .quote => match site.operands with
    | [op] => pure op.code.quoted
    | ops => .fail (.wrongArgCount "quote" "1 argument" ops.length)
  | .member => match site.operands with
    | [target, member] => do
      let v ← target.run view allowed env
      let name ← member.code.memberNameIn
      v.memberIn view name
    | ops => .fail (.wrongArgCount "$" "2 arguments" ops.length)
  | .arithmetic op => do
    let vs ← evalOperandsIn view allowed env site.operands
    .ofExcept (op.apply vs)

end ViewSite

/-! ## Formulas and quosures -/

/-- The operator bound to `~` in the base frame. The first answer is kept for
good. -/
def baseTildeIn (view : View) : ViewM Primitive := do
  match ← .read Memo.tilde with
  | some p => pure p
  | none => match view.local? .base .tilde with
    | some (.builtin p) => do
      .update ({ · with tilde := some p })
      pure p
    | some v => .fail (.typeMismatch "primitive `~`" v.typeName)
    | none => .fail (.undefinedFunction "~")

/-- Where a quosure is evaluated: in its own scope, or else in the `.env` of the
overscope. -/
def targetIn (view : View) (own : Option EnvId) (overscope : EnvId) : ViewM EnvId :=
  match own with
  | some e => pure e
  | none => match view.local? overscope .env with
    | some (.env e) => pure e
    | some v => .fail (.typeMismatch "environment" v.typeName)
    | none => do .fail (.undefinedVariable (← textOf .env))

namespace ViewSite

/-- Lets the base `~` build the formula of a call. -/
def toFormulaIn (site : ViewSite) (view : View) (allowed : Option Allowance) (env : EnvId) :
    ViewM Value :=
  match site.object with
  | some ⟨head, args, some e, kind⟩ => pure (.formula head args (some e) kind)
  | _ => do
    let p ← baseTildeIn view
    let v ← deeper allowed fun allowed =>
      applyIn { site with head := .inlined p, object := none } view allowed env p
    match v with
    | .formula _ args own kind => pure (.formula (.symbol .tilde) args own kind)
    | v => pure v

/-- Evaluates the right-hand side of a quosure under the view in which its scope is
spliced into the overscope. -/
def quosureIn (site : ViewSite) (own : Option EnvId) (view : View) (allowed : Option Allowance)
    (overscope top : EnvId) : ViewM Value :=
  match site.operands.getLast? with
  | none => pure .missing
  | some rhs =>
    if rhs.code.isMissing then pure .missing
    else if !rhs.code.isSymbolic then rhs.run view allowed overscope
    else if !view.hasAncestor overscope top then .fail .notAnAncestor
    else do
      let target ← targetIn view own overscope
      if view.hasAncestor target top then .fail .cyclicScope
      else rhs.run (view.splice overscope top target) allowed overscope

/-- What `~` does in an overscope. -/
def overriddenIn (site : ViewSite) (view : View) (allowed : Option Allowance)
    (overscope top : EnvId) : ViewM Value :=
  match site.object with
  | some ⟨_, _, own, .quosure⟩ => site.quosureIn own view allowed overscope top
  | _ => site.toFormulaIn view allowed overscope

end ViewSite

/-! ## Calls and expressions -/

/-- The first callable binding of a head. -/
def Head.resolveIn (head : Head) (view : View) (env : EnvId) : ViewM Callable :=
  match head with
  | .inlined p => pure (.builtin p)
  | .symbol name =>
    match (view.resolveWhere? env name Value.isCallable).bind Value.callable? with
    | some c => pure c
    | none => do .fail (.undefinedFunction (← textOf name))

/-- Evaluates a call in an environment. -/
def ViewSite.evalIn (site : ViewSite) (view : View) (allowed : Option Allowance) (env : EnvId) :
    ViewM Value :=
  deeper allowed fun allowed => do
    match ← site.head.resolveIn view env with
    | .builtin p => site.applyIn view allowed env p
    | .override t =>
      if view.isLive t.mask && view.isLive t.top then
        site.overriddenIn view allowed t.mask t.top
      else .fail .maskDropped

mutual

/-- Evaluates an expression in an environment. -/
def Expr.evalIn : Expr → View → Option Allowance → EnvId → ViewM Value
  | .const v => v.evalInlinedIn
  | .symbol name => fun view _ env => match view.resolve? env name with
    | some v => pure v
    | none => do .fail (.undefinedVariable (← textOf name))
  | .call head args => (ViewSite.mk head args.operandsIn none).evalIn
  | .missing => fun _ _ _ => pure .missing
termination_by structural e => e

/-- Evaluates an inlined value: a formula object acts as a `~` call. -/
def Value.evalInlinedIn : Value → View → Option Allowance → EnvId → ViewM Value
  | .formula head args own kind =>
    (ViewSite.mk head args.operandsIn (some ⟨head, args, own, kind⟩)).evalIn
  | v => fun _ _ _ => pure v
termination_by structural v => v

/-- Operands with their meanings. -/
def Args.operandsIn : Args → List ViewOperand
  | .nil => []
  | .cons e rest => ⟨e, e.evalIn⟩ :: rest.operandsIn
termination_by structural args => args

end

/-- The call that a value stands for: a quoted call or a formula object. -/
def Value.viewSite? : Value → Option ViewSite
  | .formula head args own kind => some ⟨head, args.operandsIn, some ⟨head, args, own, kind⟩⟩
  | .code (.call head args) => some ⟨head, args.operandsIn, none⟩
  | _ => none

/-- Evaluates a `~` call in an overscope, as the override of `~` does. -/
def Value.evalTildeIn (v : Value) (view : View) (allowed : Option Allowance)
    (overscope top : EnvId) : ViewM Value :=
  match v.viewSite? with
  | some site => site.overriddenIn view allowed overscope top
  | none => .fail (.typeMismatch "`~` call" v.typeName)

/-- Evaluates a `~` call as the base `~` does. -/
def Value.toFormulaIn (v : Value) (view : View) (allowed : Option Allowance) (env : EnvId) :
    ViewM Value :=
  match v.viewSite? with
  | some site => site.toFormulaIn view allowed env
  | none => .fail (.typeMismatch "`~` call" v.typeName)

/-! ## Quosures -/

theorem Args.operandsIn_eq_map (args : Args) :
    args.operandsIn = args.toList.map fun e => ⟨e, e.evalIn⟩ := by
  cases args with
  | nil => rfl
  | cons e rest => rw [Args.operandsIn, Args.toList, List.map_cons, rest.operandsIn_eq_map]

/-- A quosure over symbolic code checks the top frame, then its scope, and then evaluates the
code under the splice. -/
theorem Formula.evalTildeIn_of_rhs {q : Formula} (hq : q.isQuosure) {rhs : Expr}
    (hrhs : q.rhs? = some rhs) (hsym : rhs.isSymbolic) (view : View) (allowed : Option Allowance)
    (overscope top : EnvId) :
    q.toValue.evalTildeIn view allowed overscope top =
      if !view.hasAncestor overscope top then .fail .notAnAncestor
      else targetIn view q.env overscope >>= fun target =>
        if view.hasAncestor target top then .fail .cyclicScope
        else rhs.evalIn (view.splice overscope top target) allowed overscope := by
  obtain ⟨head, args, own, kind⟩ := q
  have hkind : kind = .quosure := of_decide_eq_true hq
  subst hkind
  have hmiss : rhs.isMissing = false := by
    cases rhs with
    | missing => cases hsym
    | _ => rfl
  have hlast : args.operandsIn.getLast? = some ⟨rhs, rhs.evalIn⟩ := by
    rw [args.operandsIn_eq_map, List.getLast?_map, show args.toList.getLast? = some rhs from hrhs]
    rfl
  show ViewSite.quosureIn ⟨head, args.operandsIn, _⟩ own view allowed overscope top = _
  simp only [ViewSite.quosureIn, hlast, hmiss, hsym, Bool.not_true, Bool.false_eq_true, if_false]

end Overscope
