-- The evaluator as a procedure that may go on for ever. It walks up a chain for as long as
-- there is a parent, and it evaluates operands by calling itself on them, whatever they are.
-- Nothing in its text says that either of the two ends, so a run is a finite derivation, and
-- there is one exactly where the procedure returns.
import Overscope.Proofs.DataEval
import Overscope.Proofs.OwnMask

namespace Overscope

/-! ## Walks without a bound -/

/-- Going up the links from a frame, to the first one at which `stop` holds or to one without a
parent: the frames that are passed, and where it stopped. -/
inductive Heap.Walk (h : Heap) (stop : EnvId → Bool) :
    EnvId → List EnvId → Option EnvId → Prop
  | found {e : EnvId} : stop e = true → h.Walk stop e [e] (some e)
  | next {e p : EnvId} {path : List EnvId} {r : Option EnvId} : stop e = false → h.Link e p →
      h.Walk stop p path r → h.Walk stop e (e :: path) r
  | off {e : EnvId} : stop e = false → h.parent? e = none → h.Walk stop e [e] none

theorem Heap.Walk.unique {h : Heap} {stop : EnvId → Bool} {e : EnvId} {path path' : List EnvId}
    {r r' : Option EnvId} (hw : h.Walk stop e path r) (hw' : h.Walk stop e path' r') :
    path = path' ∧ r = r' := by
  induction hw generalizing path' r' with
  | found hs =>
    cases hw' with
    | found _ => exact ⟨rfl, rfl⟩
    | next hs' _ _ => rw [hs] at hs'; cases hs'
    | off hs' _ => rw [hs] at hs'; cases hs'
  | next hs hp _ ih =>
    cases hw' with
    | found hs' => rw [hs] at hs'; cases hs'
    | next _ hp' hrest =>
      obtain rfl := hp.eq hp'
      obtain ⟨rfl, rfl⟩ := ih hrest
      exact ⟨rfl, rfl⟩
    | off _ hroot => rw [Link] at hp; rw [hp] at hroot; cases hroot
  | off hs hroot =>
    cases hw' with
    | found hs' => rw [hs] at hs'; cases hs'
    | next _ hp' _ => rw [Link] at hp'; rw [hp'] at hroot; cases hroot
    | off _ _ => exact ⟨rfl, rfl⟩

/-- Without a cycle every walk ends, and passes the chain up to where it stops. -/
theorem Heap.walk_chain {h : Heap} (hac : h.Acyclic) (stop : EnvId → Bool) (e : EnvId) :
    h.Walk stop e ((h.chain e).take ((h.chain e).findIdx stop + 1)) ((h.chain e).find? stop) := by
  induction hc : h.chain e generalizing e with
  | nil => cases hc
  | cons f rest ih =>
    have hhead : f = e := by
      have hfirst := h.head?_chain e
      rw [hc] at hfirst
      exact Option.some.inj hfirst
    subst hhead
    cases hs : stop f with
    | true =>
      simp only [List.findIdx_cons, List.find?_cons, hs, cond_true, List.take_succ_cons,
        List.take_zero]
      exact .found hs
    | false =>
      simp only [List.findIdx_cons, List.find?_cons, hs, cond_false, List.take_succ_cons]
      rcases hp : h.parent? f with _ | p
      · rw [chain_of_root hp] at hc
        obtain ⟨-, rfl⟩ := List.cons.inj hc
        exact .off hs hp
      · rw [chain_of_link hac hp] at hc
        obtain ⟨-, hrest⟩ := List.cons.inj hc
        exact .next hs hp (ih p hrest)

/-! ## Procedures -/

/-- A procedure does one thing after the other: a step without a loop, a walk, an evaluation by a
call of itself, or another procedure whose failure does not end it yet. -/
inductive Proc : Type → Type 1 where
  | step {α : Type} (x : EvalM α) : Proc α
  | walk {α : Type} (stop : Heap → EnvId → Bool) (e : EnvId)
      (next : List EnvId × Option EnvId → Proc α) : Proc α
  | eval {α : Type} (e : Expr) (env : EnvId) (next : Except EvalError Value → Proc α) : Proc α
  | attempt {α β : Type} (p : Proc α) (next : Except EvalError α → Proc β) : Proc β

namespace Proc

variable {α β : Type}

def fail (e : EvalError) : Proc α := .step (.fail e)

/-- A failure ends the procedure. -/
protected def bind (p : Proc α) (k : α → Proc β) : Proc β :=
  .attempt p fun
    | .ok a => k a
    | .error err => fail err

instance : Monad Proc where
  pure a := .step (pure a)
  bind := Proc.bind

/-- All evaluations that the procedure may start, whatever its steps and walks give, are of
expressions that satisfy `P`. -/
def Calls (P : Expr → Prop) : {α : Type} → Proc α → Prop
  | _, .step _ => True
  | _, .walk _ _ next => ∀ found, (next found).Calls P
  | _, .eval e _ next => P e ∧ ∀ r, (next r).Calls P
  | _, .attempt p next => p.Calls P ∧ ∀ r, (next r).Calls P

/-- Goes up from a frame to where `stop` holds. -/
def up (stop : Heap → EnvId → Bool) (e : EnvId) : Proc (List EnvId × Option EnvId) :=
  .walk stop e pure

def evaluate (e : Expr) (env : EnvId) : Proc Value := .eval e env fun r => .step (.ofExcept r)

/-! ### Looking around -/

/-- Whether a frame is met on the way up. -/
def onChain (e other : EnvId) : Proc Bool := do
  let (_, found) ← up (fun _ f => f == other) e
  pure found.isSome

/-- The first binding of a name on the way up that is accepted. -/
def lookup (accept : Value → Bool) (name : Name) (env : EnvId) : Proc (Option Value) := do
  let (_, found) ← up (fun h f => (h.local? f name).any accept) env
  .step (.read fun s => found.bind fun f => s.heap.local? f name)

/-! ### Around a body -/

/-- What is done before a body, and after it, however it ends. -/
def around (enter : State → State) (leave : State → State) (p : Proc α) : Proc α := do
  .step (.update enter)
  .attempt p fun r => do
    .step (.update leave)
    .step (.ofExcept r)

/-- One call deeper, unless that is too deep. -/
def deeper (mode : Mode) (p : Proc α) : Proc α := do
  let depth ← .step (.read State.depth)
  match mode.limit?.filter (· < depth + 1) with
  | some limit => fail (.recursionLimit limit)
  | none =>
    around (fun s => { s with depth := s.depth + 1 }) (fun s => { s with depth := s.depth - 1 }) p

/-- While a guard is in force. -/
def guarded (guard : Guard) (p : Proc α) : Proc α := do
  let held ← .step (.read State.held)
  around (fun s => { s with held := joinHandles guard.handles s.held })
    (fun s => ({ s with heap := s.heap.release guard, held } : State).sweep) p

def withBinding (e : EnvId) (name : Name) (v : Value) (p : Proc α) : Proc α := do
  let (guard, heap) ← .step (.read (·.heap.swapBinding e name v))
  .step (.update ({ · with heap }))
  guarded guard p

/-- Under another parent for a frame, unless the frame is met on the way up from there. -/
def withParent (e parent : EnvId) (p : Proc α) : Proc α := do
  if ← onChain parent e then fail .cyclicScope
  else
    let guard ← .step (.read fun s => Guard.parent e (s.heap.parent? e))
    .step (.update fun s => { s with heap := s.heap.setParent e (some parent) })
    guarded guard p

def withScope (overscope top target : EnvId) (p : Proc α) : Proc α := do
  if ← .step (.read (·.heap.isMask overscope)) then
    withBinding overscope .env (.env target) (withParent top target p)
  else
    withParent top target p

end Proc

/-! ## The evaluator -/

namespace Proc

/-- Evaluates operands from left to right. -/
def evalEach : List Expr → EnvId → Proc (List Value)
  | [], _ => pure []
  | e :: es, env => do
    let v ← evaluate e env
    let vs ← evalEach es env
    pure (v :: vs)

/-- Applies an operator. -/
def apply (head : Head) (args : Args) (object : Option Formula) (env : EnvId) :
    Primitive → Proc Value
  | .tilde => pure (object.getD ⟨head, args, some env, .plain⟩).toValue
  | .quote => match args.toList with
    | [e] => pure e.quoted
    | es => fail (.wrongArgCount "quote" "1 argument" es.length)
  | .member => match args.toList with
    | [target, member] => do
      let v ← evaluate target env
      .step (member.memberName >>= fun name => v.member name)
    | es => fail (.wrongArgCount "$" "2 arguments" es.length)
  | .arithmetic op => do
    let vs ← evalEach args.toList env
    .step (.ofExcept (op.apply vs))

/-- Lets the base `~` build a formula: the call is evaluated again, with the operator in its
head. -/
def toFormula (args : Args) (object : Option Formula) (env : EnvId) : Proc Value :=
  match object with
  | some ⟨head, args, some e, kind⟩ => pure (.formula head args (some e) kind)
  | _ => do
    let p ← .step baseTilde
    let v ← evaluate (.call (.inlined p) args) env
    match v with
    | .formula _ args own kind => pure (.formula (.symbol .tilde) args own kind)
    | v => pure v

/-- Evaluates the right-hand side of a quosure in an overscope. -/
def evalQuosure (args : Args) (own : Option EnvId) (overscope top : EnvId) : Proc Value :=
  match args.toList.getLast? with
  | none => pure .missing
  | some rhs =>
    if rhs.isMissing then pure .missing
    else if !rhs.isSymbolic then evaluate rhs overscope
    else do
      if ← onChain overscope top then
        let target ← .step (targetScope own overscope)
        withScope overscope top target (evaluate rhs overscope)
      else fail .notAnAncestor

/-- What `~` does in an overscope. -/
def overridden (args : Args) (object : Option Formula) (overscope top : EnvId) : Proc Value :=
  match object with
  | some ⟨_, _, own, .quosure⟩ => evalQuosure args own overscope top
  | _ => toFormula args object overscope

/-- Evaluates a call. A symbol in the head is looked up, an operator there stands for itself. -/
def call (mode : Mode) (head : Head) (args : Args) (object : Option Formula) (env : EnvId) :
    Proc Value :=
  deeper mode <| match head with
    | .inlined p => apply head args object env p
    | .symbol name => do
      match (← lookup Value.isCallable name env).bind Value.callable? with
      | none => .step (nameText name >>= fun text => .fail (.undefinedFunction text))
      | some (.builtin p) => apply head args object env p
      | some (.override t) => do
        let (mask, top) ← .step t.frames
        overridden args object mask top

end Proc

/-- Evaluates an expression. -/
def Expr.proc (mode : Mode) (e : Expr) (env : EnvId) : Proc Value :=
  match e with
  | .const (.formula head args own kind) =>
    .call mode head args (some ⟨head, args, own, kind⟩) env
  | .const v => pure v
  | .symbol name => do
    match ← .lookup (fun _ => true) name env with
    | some v => pure v
    | none => .step (nameText name >>= fun text => .fail (.undefinedVariable text))
  | .call head args => .call mode head args none env
  | .missing => pure .missing

/-- Evaluates a `~` call in an overscope. -/
def Value.tildeProc (v : Value) (overscope top : EnvId) : Proc Value :=
  match v with
  | .formula head args own kind => .overridden args (some ⟨head, args, own, kind⟩) overscope top
  | .code (.call _ args) => .overridden args none overscope top
  | v => .fail (.typeMismatch "`~` call" v.typeName)

/-- Evaluates a `~` call as the base `~` does. -/
def Value.formulaProc (v : Value) (env : EnvId) : Proc Value :=
  match v with
  | .formula head args own kind => .toFormula args (some ⟨head, args, own, kind⟩) env
  | .code (.call _ args) => .toFormula args none env
  | v => .fail (.typeMismatch "`~` call" v.typeName)

/-! ## Masks -/

namespace Proc

/-- Adds a frame. -/
def alloc (make : Heap → EnvId × Heap) : Proc EnvId := do
  let (e, heap) ← .step (.read fun s => make s.heap)
  .step (.update ({ · with heap }))
  pure e

/-- Builds a mask whose one frame of data is `bottom`, after a look whether that is on its own
chain. -/
def maskOver (bottom scope : EnvId) : Proc EnvId := do
  if ← onChain bottom bottom then alloc (·.addMask bottom bottom scope)
  else fail (.invalidDataMask .topOffChain)

/-- Builds a data mask from data. -/
def maskOf (data : Value) (scope : EnvId) : Proc EnvId :=
  match data with
  | .null => do
    let bottom ← alloc (·.alloc (.empty (some scope)))
    maskOver bottom scope
  | .env e => do
    let bottom ← alloc (·.copyFrame e (some scope))
    .step (.update fun s =>
      { s with heap := s.heap.bind bottom .data (.pronoun (.env e) absenceInEnv) })
    maskOver bottom scope
  | .list kind entries => match entries.defect? with
    | some defect => fail (.invalidDataMask defect)
    | none => do
      let bottom ← alloc (·.addData entries scope)
      .step (.update fun s =>
        { s with heap := s.heap.bind bottom .data (.pronoun (.list kind entries) kind.absence) })
      maskOver bottom scope
  | v => fail (.invalidDataMask (.unsupported v.typeName))

/-- Clears the frames that are met on the way up from `bottom` to `top`, after a look whether
that is met at all. -/
def clearTo (bottom top : EnvId) : Proc Unit := do
  if ← onChain bottom top then
    let (frames, _) ← up (fun _ f => f == top) bottom
    .step (.update fun s => { s with heap := frames.foldl Heap.clear s.heap })
  else pure ()

/-- Strips a data mask. -/
def strip (mask : EnvId) : Proc Unit := do
  let bottom ← .step (.read (·.heap.parent? mask))
  let topEnv ← .step (.read (·.heap.local? mask .topEnv))
  let top := match topEnv with
    | some (.env top) => some top
    | _ => bottom
  .step (.update fun s => { s with heap := maskNames.foldl (·.unbind mask ·) s.heap })
  match bottom, top with
  | some bottom, some top => clearTo bottom top
  | _, _ => pure ()

/-- Evaluates an expression in a mask that is built for it and taken down however the evaluation
ends. -/
def inOwnMask (build : Proc EnvId) (takeDown : EnvId → Proc Unit) (e : Expr) : Proc Value := do
  let held ← .step (.read State.held)
  let mask ← build
  .step (.update fun s => { s with held := mask :: s.held })
  .eval e mask fun r => do
    takeDown mask
    .step (.update fun s => { s with heap := s.heap.sweep (keptBy r ++ held), held })
    .step (.ofExcept r)

/-- Points an existing mask at a scope, unless its top frame is met on the way up from there. -/
def point (mask scope : EnvId) : Proc Unit := do
  let top ← .step (localEnv mask .topEnv)
  if ← onChain scope top then fail .cyclicScope
  else .step (.update fun s => ({ s with heap := s.heap.pointAt mask top scope } : State).sweep)

/-- Evaluates code against data. -/
def withData (code data : Value) (env : EnvId) : Proc Value := do
  match ← .step (.read fun s => data.env?.filter s.heap.isMask) with
  | some mask => do
    point mask (code.scopeOr env)
    evaluate code.body mask
  | none => match data with
    | .null => inOwnMask (alloc (·.addQuosureMask (code.scopeOr env))) (fun _ => pure ()) code.body
    | data => inOwnMask (maskOf data (code.scopeOr env)) strip code.body

end Proc

/-! ## Runs -/

/-- A run of a procedure from a state, to an outcome and the state after it. To evaluate is to
run the procedure of the expression. A walk is one of a scope graph without a cycle. -/
inductive Runs (mode : Mode) :
    {α : Type} → Proc α → State → Except EvalError α × State → Prop
  | step {α : Type} (x : EvalM α) (s : State) : Runs mode (.step x) s (x s)
  | walk {α : Type} {stop : Heap → EnvId → Bool} {e : EnvId}
      {next : List EnvId × Option EnvId → Proc α} {s : State} {path : List EnvId}
      {found : Option EnvId} {out : Except EvalError α × State} : s.heap.Acyclic →
      s.heap.Walk (stop s.heap) e path found → Runs mode (next (path, found)) s out →
      Runs mode (.walk stop e next) s out
  | eval {α : Type} {e : Expr} {env : EnvId} {next : Except EvalError Value → Proc α}
      {s t : State} {r : Except EvalError Value} {out : Except EvalError α × State} :
      Runs mode (e.proc mode env) s (r, t) → Runs mode (next r) t out →
      Runs mode (.eval e env next) s out
  | attempt {α β : Type} {p : Proc α} {next : Except EvalError α → Proc β} {s t : State}
      {r : Except EvalError α} {out : Except EvalError β × State} :
      Runs mode p s (r, t) → Runs mode (next r) t out → Runs mode (.attempt p next) s out

/-- A procedure has one outcome at most. -/
theorem Runs.unique {mode : Mode} {α : Type} {p : Proc α} {s : State}
    {out out' : Except EvalError α × State} (h : Runs mode p s out) (h' : Runs mode p s out') :
    out = out' := by
  induction h with
  | step x s =>
    cases h' with
    | step => rfl
  | walk _ hw _ ih =>
    cases h' with
    | walk _ hw' hnext =>
      obtain ⟨rfl, rfl⟩ := hw.unique hw'
      exact ih hnext
  | eval _ _ ihbody ihnext =>
    cases h' with
    | eval hbody hnext =>
      cases ihbody hbody
      exact ihnext hnext
  | attempt _ _ ihbody ihnext =>
    cases h' with
    | attempt hbody hnext =>
      cases ihbody hbody
      exact ihnext hnext

end Overscope
