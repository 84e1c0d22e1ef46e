-- The evaluator. It recurses on the expression alone, since the value of a name
-- is never evaluated further, so every evaluation ends.
import Overscope.Eval.Call

namespace Overscope

mutual

/-- Evaluates an expression in an environment. -/
def Expr.eval (mode : Mode) : Expr → EnvId → EvalM Value
  | .const v => v.evalInlined mode
  | .symbol name => fun env => do
    match ← .read (·.heap.resolve? env name) with
    | some v => pure v
    | none => .fail (.undefinedVariable (← nameText name))
  | .call head args => (CallSite.mk head (args.operands mode) none).eval mode
  | .missing => fun _ => pure .missing
termination_by structural e => e

/-- Evaluates an inlined value: a formula object acts as a `~` call, any other
value is its own result. -/
def Value.evalInlined (mode : Mode) : Value → EnvId → EvalM Value
  | .formula head args own kind =>
    (CallSite.mk head (args.operands mode) (some ⟨head, args, own, kind⟩)).eval mode
  | v => fun _ => pure v
termination_by structural v => v

/-- Operands with their meanings. -/
def Args.operands (mode : Mode) : Args → List Operand
  | .nil => []
  | .cons e rest => ⟨e, e.eval mode⟩ :: rest.operands mode
termination_by structural args => args

end

theorem Args.operands_eq_map (mode : Mode) (args : Args) :
    args.operands mode = args.toList.map fun e => ⟨e, e.eval mode⟩ := by
  cases args with
  | nil => rfl
  | cons e rest => rw [Args.operands, Args.toList, List.map_cons, rest.operands_eq_map mode]

/-- An evaluated call has the operands that it is written with. -/
theorem CallSite.args_operands (mode : Mode) (head : Head) (args : Args)
    (object : Option Formula) : (CallSite.mk head (args.operands mode) object).args = args := by
  simp [CallSite.args, Args.operands_eq_map, Function.comp_def]

/-- The call that a value stands for: a quoted call or a formula object. -/
def Value.callSite? (mode : Mode) : Value → Option CallSite
  | .formula head args own kind => some ⟨head, args.operands mode, some ⟨head, args, own, kind⟩⟩
  | .code (.call head args) => some ⟨head, args.operands mode, none⟩
  | _ => none

/-- Evaluates a `~` call in an overscope, as the override of `~` does. -/
def Value.evalTilde (mode : Mode) (v : Value) (overscope top : EnvId) : EvalM Value :=
  match v.callSite? mode with
  | some site => site.overridden mode overscope top
  | none => .fail (.typeMismatch "`~` call" v.typeName)

/-- Evaluates a `~` call as the base `~` does. -/
def Value.toFormula (mode : Mode) (v : Value) (env : EnvId) : EvalM Value :=
  match v.callSite? mode with
  | some site => site.toFormula mode env
  | none => .fail (.typeMismatch "`~` call" v.typeName)

end Overscope
