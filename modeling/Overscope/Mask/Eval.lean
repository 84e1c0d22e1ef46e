-- Evaluation against data: in a mask that the caller keeps, or in one that lives
-- as long as the evaluation.
import Overscope.Eval.Basic
import Overscope.Mask.Basic

namespace Overscope

/-- Points an existing mask at the evaluation environment, which stays so. The
scope that was in force before is let go. A parent link that would close a cycle
is refused before anything changes. -/
def pointMask (mask env : EnvId) : EvalM Unit := do
  let top ← localEnv mask .topEnv
  let heap ← .ofExcept (← .read (·.heap.reparent top (some env)))
  .update fun s => { s with heap := heap.bind mask .env (.env env) : State }.sweep

/-- Runs `body` in a mask of its own. The evaluation holds the mask, takes it
down however `body` ends, and lets it go: it lives on only if the result holds
it. -/
def inOwnMask (build : Heap → Except EvalError (EnvId × Heap)) (takeDown : Heap → EnvId → Heap)
    (body : EnvId → EvalM Value) : EvalM Value := fun s =>
  match build s.heap with
  | .error e => (.error e, s)
  | .ok (mask, heap) =>
    let (r, s') := body mask { s with heap, held := mask :: s.held }
    let kept := match r with
      | .ok v => v.handles
      | .error _ => []
    let heap := (takeDown s'.heap mask).sweep (kept ++ s.held)
    (r, { s' with heap, held := s.held })

/-- What to evaluate for a value: the right-hand side of a quosure, quoted code, or
the value itself. -/
def Value.body (code : Value) : Expr :=
  match code.quosure? with
  | some f => f.rhs?.getD .missing
  | none => code.toExpr

/-- Where to evaluate a value: a quosure in its own environment, if it has one. -/
def Value.scopeOr (code : Value) (env : EnvId) : EnvId := (code.quosure?.bind Formula.env).getD env

/-- Evaluates an expression in an existing mask. -/
def evalInMask (mode : Mode) (e : Expr) (mask env : EnvId) : EvalM Value := do
  pointMask mask env
  e.eval mode mask

/-- Evaluates an expression with data in a mask of its own. Null stands for a mask
without data, which needs no stripping. -/
def evalInOwnMask (mode : Mode) (e : Expr) (data : Value) (env : EnvId) : EvalM Value :=
  match data with
  | .null => inOwnMask (fun h => .ok (h.addQuosureMask env)) (fun h _ => h) (e.eval mode)
  | data => inOwnMask (·.maskOf data env) Heap.stripMask (e.eval mode)

/-- Evaluates code against data: an existing data mask, or data for a mask of its
own. -/
def evalWithData (mode : Mode) (code data : Value) (env : EnvId) : EvalM Value := do
  match ← .read fun s => data.env?.filter s.heap.isMask with
  | some mask => evalInMask mode code.body mask (code.scopeOr env)
  | none => evalInOwnMask mode code.body data (code.scopeOr env)

end Overscope
