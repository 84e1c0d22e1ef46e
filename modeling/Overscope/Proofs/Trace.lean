-- Evaluation with a record of its course: each evaluation that is started on the way, of
-- which expression, where, and in which state. The steps themselves are the evaluator's,
-- so a traced evaluation runs what an evaluation runs.
import Overscope.Mask.Eval

namespace Overscope

/-! ## Records -/

/-- The start of an evaluation. -/
structure Visit where
  expr : Expr
  env : EnvId
  state : State

/-- A step, and the evaluations that it starts. -/
structure Traced (α : Type) where
  run : EvalM α
  visits : State → List Visit

variable {α β : Type}

/-- The state in which a step that prepares one runs its body, or why it does not get there. -/
def startOf (prepare : (γ : Type) → EvalM γ → EvalM γ) (s : State) : Except EvalError State :=
  (prepare _ (.read id) s).1

namespace Traced

/-- A step that starts no evaluation. -/
def silent (x : EvalM α) : Traced α := ⟨x, fun _ => []⟩

/-- A step, and then one on its result, unless it fails. -/
protected def bind (x : Traced α) (f : α → Traced β) : Traced β where
  run := x.run >>= fun a => (f a).run
  visits s := x.visits s ++ match x.run s with
    | (.ok a, s') => (f a).visits s'
    | (.error _, _) => []

instance : Monad Traced where
  pure a := silent (pure a)
  bind := Traced.bind

/-- An evaluation of `e` that is carried out by `x`. -/
def evaluates (e : Expr) (env : EnvId) (x : Traced α) : Traced α :=
  ⟨x.run, fun s => ⟨e, env, s⟩ :: x.visits s⟩

/-- A step in a state that is prepared for it. -/
def inside (prepare : (γ : Type) → EvalM γ → EvalM γ) (x : Traced α) : Traced α :=
  ⟨prepare α x.run, fun s => match startOf prepare s with
    | .ok t => x.visits t
    | .error _ => []⟩

@[simp]
theorem run_silent (x : EvalM α) : (silent x).run = x := rfl

@[simp]
theorem run_bind (x : Traced α) (f : α → Traced β) :
    (x >>= f).run = x.run >>= fun a => (f a).run := rfl

@[simp]
theorem run_evaluates (e : Expr) (env : EnvId) (x : Traced α) : (evaluates e env x).run = x.run :=
  rfl

@[simp]
theorem run_inside (prepare : (γ : Type) → EvalM γ → EvalM γ) (x : Traced α) :
    (inside prepare x).run = prepare α x.run := rfl

theorem visits_bind_ok {x : Traced α} {f : α → Traced β} {s s' : State} {a : α}
    (h : x.run s = (.ok a, s')) : (x >>= f).visits s = x.visits s ++ (f a).visits s' := by
  show x.visits s ++ _ = _
  rw [h]

theorem visits_bind_error {x : Traced α} {f : α → Traced β} {s s' : State} {e : EvalError}
    (h : x.run s = (.error e, s')) : (x >>= f).visits s = x.visits s := by
  show x.visits s ++ _ = _
  rw [h, List.append_nil]

/-- A step that starts no evaluation leaves the visits to the next one. -/
theorem visits_silent_bind_ok {x : EvalM α} {f : α → Traced β} {s s' : State} {a : α}
    (h : x s = (.ok a, s')) : (silent x >>= f).visits s = (f a).visits s' :=
  visits_bind_ok (x := silent x) h

theorem visits_silent_bind_error {x : EvalM α} {f : α → Traced β} {s s' : State} {e : EvalError}
    (h : x s = (.error e, s')) : (silent x >>= f).visits s = [] :=
  visits_bind_error (x := silent x) h

end Traced

/-! ## Calls -/

structure TracedOperand where
  code : Expr
  run : EnvId → Traced Value

structure TracedSite where
  head : Head
  operands : List TracedOperand
  object : Option Formula

/-- The operand without the record. -/
def TracedOperand.bare (op : TracedOperand) : Operand := ⟨op.code, fun env => (op.run env).run⟩

/-- The call without the record. -/
def TracedSite.bare (site : TracedSite) : CallSite :=
  ⟨site.head, site.operands.map TracedOperand.bare, site.object⟩

/-- Evaluates operands from left to right. -/
def traceOperands : List TracedOperand → EnvId → Traced (List Value)
  | [], _ => pure []
  | op :: ops, env => do
    let v ← op.run env
    let vs ← traceOperands ops env
    pure (v :: vs)

namespace TracedSite

variable (mode : Mode) (site : TracedSite)

/-- Applies an operator. The special ones but `$` start no evaluation. -/
def apply (env : EnvId) (p : Primitive) : Traced Value :=
  match p, site.operands with
  | .member, [target, member] => do
    let v ← target.run env
    .silent (member.code.memberName >>= fun name => v.member name)
  | .arithmetic op, ops => do
    let vs ← traceOperands ops env
    .silent (.ofExcept (op.apply vs))
  | p, _ => .silent (site.bare.apply env p)

/-- Lets the base `~` build a formula, which evaluates the call with the operator in its
head. -/
def toFormula (env : EnvId) : Traced Value :=
  match site.object with
  | some ⟨head, args, some e, kind⟩ => pure (.formula head args (some e) kind)
  | _ => do
    let p ← .silent baseTilde
    let v ← .evaluates (.call (.inlined p) site.bare.args) env
      (.inside (fun _ => nested mode)
        (apply { site with head := .inlined p, object := none } env p))
    .silent (match v with
      | .formula _ args own kind => pure (.formula (.symbol .tilde) args own kind)
      | v => pure v)

/-- Evaluates the right-hand side of a quosure in an overscope. -/
def evalQuosure (own : Option EnvId) (overscope top : EnvId) : Traced Value :=
  match site.operands.getLast? with
  | none => pure .missing
  | some rhs =>
    if rhs.code.isMissing then pure .missing
    else if !rhs.code.isSymbolic then rhs.run overscope
    else do
      .silent (requireOnChain overscope top)
      let target ← .silent (targetScope own overscope)
      .inside (fun _ => withScope overscope top target) (rhs.run overscope)

/-- What `~` does in an overscope. -/
def overridden (overscope top : EnvId) : Traced Value :=
  match site.object with
  | some ⟨_, _, own, .quosure⟩ => site.evalQuosure own overscope top
  | _ => site.toFormula mode overscope

/-- Evaluates a call. -/
def eval (env : EnvId) : Traced Value :=
  .inside (fun _ => nested mode) do
    match ← .silent (site.head.resolve env) with
    | .builtin p => site.apply env p
    | .override t => do
      let (mask, top) ← .silent t.frames
      site.overridden mode mask top

end TracedSite

/-! ## Code and values -/

mutual

/-- Evaluates an expression. -/
def Expr.trace (mode : Mode) : Expr → EnvId → Traced Value
  | .const v => v.traceInlined mode
  | .symbol name => fun env =>
    .evaluates (.symbol name) env (.silent (Expr.eval mode (.symbol name) env))
  | .call head args => fun env =>
    .evaluates (.call head args) env ((TracedSite.mk head (args.traced mode) none).eval mode env)
  | .missing => fun env => .evaluates .missing env (pure .missing)
termination_by structural e => e

/-- Evaluates an inlined value. -/
def Value.traceInlined (mode : Mode) : Value → EnvId → Traced Value
  | .formula head args own kind => fun env =>
    .evaluates (.const (.formula head args own kind)) env
      ((TracedSite.mk head (args.traced mode) (some ⟨head, args, own, kind⟩)).eval mode env)
  | v => fun env => .evaluates (.const v) env (pure v)
termination_by structural v => v

/-- Operands with their traced meanings. -/
def Args.traced (mode : Mode) : Args → List TracedOperand
  | .nil => []
  | .cons e rest => ⟨e, e.trace mode⟩ :: rest.traced mode
termination_by structural args => args

end

/-- The traced call that a value stands for. -/
def Value.tracedSite? (mode : Mode) : Value → Option TracedSite
  | .formula head args own kind => some ⟨head, args.traced mode, some ⟨head, args, own, kind⟩⟩
  | .code (.call head args) => some ⟨head, args.traced mode, none⟩
  | _ => none

/-- Evaluates a `~` call in an overscope. -/
def Value.traceTilde (mode : Mode) (v : Value) (overscope top : EnvId) : Traced Value :=
  match v.tracedSite? mode with
  | some site => site.overridden mode overscope top
  | none => .silent (.fail (.typeMismatch "`~` call" v.typeName))

/-- Evaluates a `~` call as the base `~` does. -/
def Value.traceFormula (mode : Mode) (v : Value) (env : EnvId) : Traced Value :=
  match v.tracedSite? mode with
  | some site => site.toFormula mode env
  | none => .silent (.fail (.typeMismatch "`~` call" v.typeName))

/-! ## Data -/

/-- Runs `body` in a mask of its own, in the state in which the mask was built. -/
def traceInOwnMask (build : Heap → Except EvalError (EnvId × Heap))
    (takeDown : Heap → EnvId → Heap) (body : EnvId → Traced Value) : Traced Value where
  run := inOwnMask build takeDown fun mask => (body mask).run
  visits s := match build s.heap with
    | .error _ => []
    | .ok (mask, heap) => (body mask).visits { s with heap, held := mask :: s.held }

/-- Evaluates an expression with data in a mask of its own. -/
def traceInData (mode : Mode) (e : Expr) (data : Value) (env : EnvId) : Traced Value :=
  match data with
  | .null =>
    traceInOwnMask (fun h => .ok (h.addQuosureMask env)) (fun h _ => h) (e.trace mode)
  | data => traceInOwnMask (·.maskOf data env) Heap.stripMask (e.trace mode)

/-- Evaluates code against data. -/
def traceWithData (mode : Mode) (code data : Value) (env : EnvId) : Traced Value := do
  match ← .silent (.read fun s => data.env?.filter s.heap.isMask) with
  | some mask => do
    .silent (pointMask mask (code.scopeOr env))
    code.body.trace mode mask
  | none => traceInData mode code.body data (code.scopeOr env)

theorem visits_traceWithData_of_none {mode : Mode} {code data : Value} {env : EnvId} {s : State}
    (h : data.env?.filter s.heap.isMask = none) :
    (traceWithData mode code data env).visits s =
      (traceInData mode code.body data (code.scopeOr env)).visits s := by
  have hread : (Attempt.read fun s => data.env?.filter s.heap.isMask : EvalM (Option EnvId)) s =
      (.ok none, s) := by rw [Attempt.read, h]
  rw [traceWithData, Traced.visits_silent_bind_ok hread]

/-- In an existing mask the evaluation starts when the mask was pointed at the scope. -/
theorem visits_traceWithData_of_some {mode : Mode} {code data : Value} {env mask : EnvId}
    {s : State} (h : data.env?.filter s.heap.isMask = some mask) :
    (traceWithData mode code data env).visits s =
      (Traced.silent (pointMask mask (code.scopeOr env)) >>= fun _ =>
        code.body.trace mode mask).visits s := by
  have hread : (Attempt.read fun s => data.env?.filter s.heap.isMask : EvalM (Option EnvId)) s =
      (.ok (some mask), s) := by rw [Attempt.read, h]
  rw [traceWithData, Traced.visits_silent_bind_ok hread]

/-! ## Without the record -/

theorem run_traceOperands (ops : List TracedOperand) (env : EnvId) :
    (traceOperands ops env).run = evalOperands (ops.map TracedOperand.bare) env := by
  induction ops with
  | nil => rfl
  | cons op ops ih =>
    rw [traceOperands, List.map_cons, evalOperands, ← ih]
    rfl

namespace TracedSite

variable (mode : Mode) (site : TracedSite)

theorem run_apply (env : EnvId) (p : Primitive) :
    (site.apply env p).run = site.bare.apply env p := by
  obtain ⟨head, ops, object⟩ := site
  cases p with
  | member =>
    rcases ops with _ | ⟨target, _ | ⟨member, _ | _⟩⟩ <;> rfl
  | arithmetic op =>
    rw [apply, Traced.run_bind, run_traceOperands]
    rfl
  | _ => rfl

theorem run_toFormula (env : EnvId) :
    (site.toFormula mode env).run = site.bare.toFormula mode env := by
  obtain ⟨head, ops, object⟩ := site
  have hbuilt : (toFormula mode ⟨head, ops, none⟩ env).run =
      CallSite.toFormula mode ⟨head, ops.map TracedOperand.bare, none⟩ env := by
    simp only [toFormula, CallSite.toFormula, Traced.run_bind, Traced.run_silent,
      Traced.run_evaluates, Traced.run_inside, run_apply]
    rfl
  rcases object with _ | ⟨head', args, _ | e, kind⟩
  · exact hbuilt
  · exact hbuilt
  · rfl

theorem run_evalQuosure (own : Option EnvId) (overscope top : EnvId) :
    (site.evalQuosure own overscope top).run = site.bare.evalQuosure own overscope top := by
  simp only [evalQuosure, CallSite.evalQuosure, bare, List.getLast?_map]
  rcases site.operands.getLast? with _ | rhs
  · rfl
  · simp only [Option.map_some, show rhs.bare.code = rhs.code from rfl]
    split
    · rfl
    split
    · rfl
    · rfl

theorem run_overridden (overscope top : EnvId) :
    (site.overridden mode overscope top).run = site.bare.overridden mode overscope top := by
  have hquosure := fun own => site.run_evalQuosure own overscope top
  have hformula := site.run_toFormula mode overscope
  obtain ⟨head, ops, object⟩ := site
  rcases object with _ | ⟨_, _, own, _ | _⟩
  · exact hformula
  · exact hformula
  · exact hquosure own

theorem run_eval (env : EnvId) : (site.eval mode env).run = site.bare.eval mode env := by
  rw [eval, Traced.run_inside, Traced.run_bind, CallSite.eval]
  congr 2
  funext c
  cases c with
  | builtin p => exact site.run_apply env p
  | override t =>
    show t.frames >>= _ = _
    congr 1
    funext frames
    exact site.run_overridden mode frames.1 frames.2

end TracedSite

mutual

/-- A traced evaluation runs what an evaluation runs. -/
theorem Expr.run_trace (mode : Mode) (e : Expr) (env : EnvId) :
    (e.trace mode env).run = e.eval mode env := by
  cases e with
  | const v => exact v.run_traceInlined mode env
  | call head args =>
    show ((TracedSite.mk head (args.traced mode) none).eval mode env).run = _
    rw [TracedSite.run_eval, TracedSite.bare, args.bare_traced]
    rfl
  | _ => rfl

theorem Value.run_traceInlined (mode : Mode) (v : Value) (env : EnvId) :
    (v.traceInlined mode env).run = v.evalInlined mode env := by
  cases v with
  | formula head args own kind =>
    show ((TracedSite.mk head (args.traced mode)
      (some ⟨head, args, own, kind⟩)).eval mode env).run = _
    rw [TracedSite.run_eval, TracedSite.bare, args.bare_traced]
    rfl
  | _ => rfl

theorem Args.bare_traced (mode : Mode) (args : Args) :
    (args.traced mode).map TracedOperand.bare = args.operands mode := by
  cases args with
  | nil => rfl
  | cons e rest =>
    rw [Args.traced, List.map_cons, rest.bare_traced, Args.operands, TracedOperand.bare]
    congr 2
    funext env
    exact e.run_trace mode env

end

theorem Value.bare_tracedSite? (mode : Mode) (v : Value) :
    (v.tracedSite? mode).map TracedSite.bare = v.callSite? mode := by
  cases v with
  | formula head args own kind =>
    simp only [Value.tracedSite?, Value.callSite?, Option.map_some, TracedSite.bare,
      args.bare_traced]
  | code e =>
    cases e with
    | call head args =>
      simp only [Value.tracedSite?, Value.callSite?, Option.map_some, TracedSite.bare,
        args.bare_traced]
    | _ => rfl
  | _ => rfl

theorem Value.run_traceTilde (mode : Mode) (v : Value) (overscope top : EnvId) :
    (v.traceTilde mode overscope top).run = v.evalTilde mode overscope top := by
  have hsite := v.bare_tracedSite? mode
  unfold Value.traceTilde
  split
  · next site hv =>
    rw [hv] at hsite
    rw [TracedSite.run_overridden, Value.evalTilde, ← hsite]
    rfl
  · next hv =>
    rw [hv] at hsite
    rw [Value.evalTilde, ← hsite]
    rfl

theorem Value.run_traceFormula (mode : Mode) (v : Value) (env : EnvId) :
    (v.traceFormula mode env).run = v.toFormula mode env := by
  have hsite := v.bare_tracedSite? mode
  unfold Value.traceFormula
  split
  · next site hv =>
    rw [hv] at hsite
    rw [TracedSite.run_toFormula, Value.toFormula, ← hsite]
    rfl
  · next hv =>
    rw [hv] at hsite
    rw [Value.toFormula, ← hsite]
    rfl

theorem run_traceInData (mode : Mode) (e : Expr) (data : Value) (env : EnvId) :
    (traceInData mode e data env).run = evalInOwnMask mode e data env := by
  have hbody : (fun mask => (e.trace mode mask).run) = e.eval mode := funext (e.run_trace mode)
  cases data <;> simp only [traceInData, traceInOwnMask, evalInOwnMask, hbody]

/-- Data that is no mask is evaluated with a mask of its own. -/
theorem evalWithData_of_none (mode : Mode) {code data : Value} {env : EnvId} {s : State}
    (h : data.env?.filter s.heap.isMask = none) :
    evalWithData mode code data env s =
      (traceInData mode code.body data (code.scopeOr env)).run s := by
  rw [run_traceInData, evalWithData, Attempt.bind_run]
  simp only [Attempt.read, h]

theorem run_traceWithData (mode : Mode) (code data : Value) (env : EnvId) :
    (traceWithData mode code data env).run = evalWithData mode code data env := by
  rw [traceWithData, evalWithData, Traced.run_bind]
  congr 1
  funext found
  cases found with
  | none => exact run_traceInData mode code.body data _
  | some mask =>
    show pointMask mask _ >>= _ = evalInMask mode code.body mask _
    rw [evalInMask]
    congr 1
    funext _
    exact code.body.run_trace mode mask

end Overscope
