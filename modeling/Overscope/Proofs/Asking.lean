-- The evaluator with base `~` left open. An evaluation looks at what base binds `~` to in one step
-- only. Here every step takes the way to that operator as an argument, and tells in which states
-- it goes that way. What is known of base `~` changes there and nowhere else. With the way that the
-- evaluator goes, it is the evaluator.
import Overscope.Proofs.OwnMask
import Overscope.Proofs.Steps

namespace Overscope

variable {α β : Type}

/-! ## Asking for the operator of base `~` -/

/-- An operator that is known is the answer, whatever base binds. -/
theorem baseTilde_of_known {s : State} {p : Primitive} (h : s.tilde = some p) :
    baseTilde s = (.ok p, s) := by
  simp only [baseTilde, Attempt.bind_run, Attempt.read, h]
  rfl

theorem baseTilde_of_bound {s : State} {p : Primitive} (h : s.tilde = none)
    (hp : s.heap.boundTilde = some (.builtin p)) :
    baseTilde s = (.ok p, { s with tilde := some p }) := by
  have hbound : s.heap.local? .base .tilde = some (.builtin p) := hp
  simp only [baseTilde, Attempt.bind_run, Attempt.read, h, hbound]
  rfl

/-- A refusal leaves everything as it is. -/
theorem baseTilde_of_unbound {s : State} (h : s.tilde = none)
    (hno : ∀ p, s.heap.boundTilde ≠ some (.builtin p)) : ∃ err, baseTilde s = (.error err, s) := by
  simp only [baseTilde, Attempt.bind_run, Attempt.read, h]
  rcases hbound : s.heap.local? .base .tilde with _ | v
  · exact ⟨_, rfl⟩
  · cases v with
    | builtin p => exact absurd hbound (hno p)
    | _ => exact ⟨_, rfl⟩

/-- Asks one after the other: each one knows what the one before it left known. -/
inductive InTurn : Option Primitive → List State → Option Primitive → Prop
  | nil {known : Option Primitive} : InTurn known [] known
  | cons {s : State} {known known' : Option Primitive} {asks : List State} :
      s.tilde = known → InTurn (baseTilde s).2.tilde asks known' → InTurn known (s :: asks) known'

theorem InTurn.append {k k' k'' : Option Primitive} {asks asks' : List State}
    (h : InTurn k asks k') (h' : InTurn k' asks' k'') : InTurn k (asks ++ asks') k'' := by
  induction h with
  | nil => exact h'
  | cons hs _ ih => exact .cons hs (ih h')

/-- Steps that leave what is known of base `~`. -/
def Silent (x : EvalM α) : Prop := ∀ s, (x s).2.tilde = s.tilde

theorem silent_pure (a : α) : Silent (pure a : EvalM α) := fun _ => rfl

theorem silent_fail (e : EvalError) : Silent (.fail e : EvalM α) := fun _ => rfl

theorem silent_read (f : State → α) : Silent (.read f : EvalM α) := fun _ => rfl

theorem silent_ofExcept (r : Except EvalError α) : Silent (.ofExcept r : EvalM α) := fun _ => rfl

theorem silent_bind {x : EvalM α} {f : α → EvalM β} (hx : Silent x) (hf : ∀ a, Silent (f a)) :
    Silent (x >>= f) := by
  intro s
  have hfirst := hx s
  rw [Attempt.bind_run]
  rcases hr : x s with ⟨_ | a, s'⟩
  · rw [hr] at hfirst
    exact hfirst
  · rw [hr] at hfirst
    exact (hf a s').trans hfirst

theorem silent_fail_text (n : Name) (e : String → EvalError) :
    Silent (nameText n >>= fun text => (.fail (e text) : EvalM α)) :=
  silent_bind (silent_read _) fun _ => silent_fail _

theorem silent_memberName (e : Expr) : Silent e.memberName := by
  cases e with
  | const v =>
    cases v with
    | str text => exact fun _ => rfl
    | _ => exact silent_fail _
  | symbol n => exact silent_pure n
  | _ => exact silent_fail _

theorem silent_member (target : Value) (name : Name) : Silent (target.member name) := by
  cases target with
  | pronoun source absence =>
    refine silent_bind (silent_read _) fun found => ?_
    cases found with
    | none => exact silent_fail_text name _
    | some v => exact silent_pure v
  | list kind entries => exact silent_pure _
  | env e => exact silent_read _
  | _ => exact silent_fail _

theorem silent_requireOnChain (overscope top : EnvId) : Silent (requireOnChain overscope top) := by
  refine silent_bind (silent_read _) fun found => ?_
  cases found with
  | true => exact silent_pure ()
  | false => exact silent_fail _

theorem silent_localEnv (e : EnvId) (name : Name) : Silent (localEnv e name) := by
  refine silent_bind (silent_read _) fun found => ?_
  cases found with
  | none => exact silent_fail_text name _
  | some v =>
    cases v with
    | env f => exact silent_pure f
    | _ => exact silent_fail _

theorem silent_targetScope (own : Option EnvId) (overscope : EnvId) :
    Silent (targetScope own overscope) := by
  cases own with
  | some e => exact silent_pure e
  | none => exact silent_localEnv overscope .env

theorem silent_resolve (head : Head) (env : EnvId) : Silent (head.resolve env) := by
  cases head with
  | inlined p => exact silent_pure _
  | symbol name =>
    refine silent_bind (silent_read _) fun found => ?_
    cases found with
    | none => exact silent_fail_text name _
    | some c => exact silent_pure c

theorem silent_frames (t : Override) : Silent t.frames := by
  refine silent_bind (silent_read _) fun alive => ?_
  cases alive with
  | true => exact silent_pure _
  | false => exact silent_fail _

theorem silent_pointMask (mask env : EnvId) : Silent (pointMask mask env) := by
  refine silent_bind (silent_localEnv mask .topEnv) fun top => ?_
  refine silent_bind (silent_read _) fun moved => ?_
  exact silent_bind (silent_ofExcept moved) fun _ _ => rfl

/-! ## Steps that may ask -/

/-- A step with the way to the operator of base `~` left open, and the states in which it asks
for the operator as it is run. -/
structure Asking (α : Type) where
  run : EvalM Primitive → EvalM α
  asks : State → List State
  /-- No other states matter: another way that gives the same in these is as good. -/
  complete : ∀ {ask : EvalM Primitive} {s : State}, (∀ t ∈ asks s, ask t = baseTilde t) →
    run ask s = run baseTilde s
  /-- Each of these does: if the way fails in it, and differs nowhere else, the step fails. -/
  reached : ∀ {ask : EvalM Primitive} {s t : State} {err : EvalError}, t ∈ asks s →
    (ask t).1 = .error err → (∀ u, u ≠ t → ask u = baseTilde u) → (run ask s).1 = .error err
  inTurn : ∀ s, InTurn s.tilde (asks s) (run baseTilde s).2.tilde

/-- What is known of base `~` is left to the body of a step that prepares the state for one. -/
def LeavesTilde (prepare : (γ : Type) → EvalM γ → EvalM γ) (s : State) :
    Except EvalError State → Prop
  | .ok t => t.tilde = s.tilde ∧ ∀ (γ : Type) (x : EvalM γ), (prepare γ x s).2.tilde = (x t).2.tilde
  | .error _ => ∀ (γ : Type) (x : EvalM γ), (prepare γ x s).2.tilde = s.tilde

theorem leavesTilde_nested (mode : Mode) (s : State) :
    ∃ r, Prepares (fun _ => nested mode) s r ∧ LeavesTilde (fun _ => nested mode) s r := by
  cases mode with
  | unlimited => exact ⟨_, prepares_nested_unlimited s, rfl, fun _ _ => rfl⟩
  | restricted limit =>
    by_cases hdeep : limit < s.depth + 1
    · have hrun : ∀ (γ : Type) (x : EvalM γ),
          nested (.restricted limit) x s = (.error (.recursionLimit limit), s) := by
        intro γ x
        simp only [nested, Mode.limit?, if_pos hdeep]
      exact ⟨.error (.recursionLimit limit), ⟨s, hrun⟩,
        fun γ x => congrArg (fun out => out.2.tilde) (hrun γ x)⟩
    · have hrun : ∀ (γ : Type) (x : EvalM γ),
          nested (.restricted limit) x s = nested.deeper x s := by
        intro γ x
        simp only [nested, Mode.limit?, if_neg hdeep]
      refine ⟨.ok { s with depth := s.depth + 1 },
        ⟨fun s' => { s' with depth := s'.depth - 1 }, hrun⟩, rfl, fun γ x => ?_⟩
      exact congrArg (fun out => out.2.tilde) (hrun γ x)

theorem tilde_withParent (x : EvalM α) (s : State) (e parent : EnvId) :
    (withParent e parent x s).2.tilde =
      if s.heap.hasAncestor parent e then s.tilde else (x (s.rehung e parent)).2.tilde := by
  split
  · next ha => rw [withParent_run_error ha]
  · next ha =>
    rw [withParent_run_ok ha]
    rfl

theorem leavesTilde_withScope (overscope top target : EnvId) (s : State) :
    ∃ r, Prepares (fun _ => withScope overscope top target) s r ∧
      LeavesTilde (fun _ => withScope overscope top target) s r := by
  refine ⟨_, prepares_withScope s overscope top target, ?_⟩
  have hrun : ∀ (γ : Type) (x : EvalM γ), (withScope overscope top target x s).2.tilde =
      if s.heap.hasAncestor target top then s.tilde
      else (x (s.spliced overscope top target)).2.tilde := by
    intro γ x
    rw [withScope_run]
    unfold State.spliced
    split
    · have hsame : (s.rebound overscope .env (.env target)).heap.hasAncestor target top =
          s.heap.hasAncestor target top := (Heap.sameLinks_bind ..).hasAncestor target top
      have hinner := tilde_withParent x (s.rebound overscope .env (.env target)) top target
      rw [hsame] at hinner
      exact hinner
    · exact tilde_withParent x s top target
  split
  · next ha =>
    intro γ x
    rw [hrun, if_pos ha]
  · next ha =>
    refine ⟨?_, fun γ x => ?_⟩
    · unfold State.spliced
      split <;> rfl
    · rw [hrun, if_neg ha]

namespace Asking

/-- A step that does not ask. -/
def silent (x : EvalM α) (hx : Silent x) : Asking α where
  run _ := x
  asks _ := []
  complete _ := rfl
  reached ht := absurd ht List.not_mem_nil
  inTurn s := by
    rw [hx s]
    exact .nil

/-- Asks for the operator. -/
def ask : Asking Primitive where
  run ask := ask
  asks s := [s]
  complete h := h _ (List.mem_singleton_self _)
  reached ht hfails _ := by
    rw [← List.mem_singleton.1 ht]
    exact hfails
  inTurn _ := .cons rfl .nil

/-- A step, and then one on its result, unless it fails. -/
protected def bind (x : Asking α) (f : α → Asking β) : Asking β where
  run ask := x.run ask >>= fun a => (f a).run ask
  asks s := x.asks s ++ match x.run baseTilde s with
    | (.ok a, s') => (f a).asks s'
    | (.error _, _) => []
  complete {ask s} h := by
    rw [List.forall_mem_append] at h
    rw [Attempt.bind_run, Attempt.bind_run, x.complete h.1]
    rcases hr : x.run baseTilde s with ⟨_ | a, s'⟩
    · rfl
    · rw [hr] at h
      exact (f a).complete h.2
  reached {ask s t err} ht hfails hagree := by
    by_cases hfirst : t ∈ x.asks s
    · have hstop := x.reached hfirst hfails hagree
      rcases hr : x.run ask s with ⟨err' | a, s'⟩
      · rw [hr] at hstop
        cases hstop
        rw [Attempt.bind_run_error hr]
      · rw [hr] at hstop
        cases hstop
    · have hsame : x.run ask s = x.run baseTilde s :=
        x.complete fun u hu => hagree u (ne_of_mem_of_not_mem hu hfirst)
      have hlater := (List.mem_append.1 ht).resolve_left hfirst
      rcases hr : x.run baseTilde s with ⟨err' | a, s'⟩
      · rw [hr] at hlater
        cases hlater
      · rw [hr] at hlater
        rw [Attempt.bind_run_ok (hsame.trans hr)]
        exact (f a).reached hlater hfails hagree
  inTurn s := by
    have hfirst := x.inTurn s
    rw [Attempt.bind_run]
    rcases hr : x.run baseTilde s with ⟨_ | a, s'⟩
    · rw [hr] at hfirst
      exact hfirst.append .nil
    · rw [hr] at hfirst
      exact hfirst.append ((f a).inTurn s')

instance : Monad Asking where
  pure a := silent (pure a) (silent_pure a)
  bind := Asking.bind

def fail (e : EvalError) : Asking α := silent (.fail e) (silent_fail e)

/-- A failure that tells a name by its text. -/
def failText (n : Name) (e : String → EvalError) : Asking α :=
  silent (nameText n >>= fun text => .fail (e text)) (silent_fail_text n e)

/-- A step in a state that is prepared for it. -/
def inside (prepare : (γ : Type) → EvalM γ → EvalM γ)
    (hleaves : ∀ s, ∃ r, Prepares prepare s r ∧ LeavesTilde prepare s r) (x : Asking α) :
    Asking α where
  run ask := prepare α (x.run ask)
  asks s := match startOf prepare s with
    | .ok t => x.asks t
    | .error _ => []
  complete {ask s} h := by
    obtain ⟨r, hprepares, -⟩ := hleaves s
    rw [hprepares.startOf_eq] at h
    cases r with
    | error err =>
      obtain ⟨s', hrun⟩ := hprepares
      rw [hrun, hrun]
    | ok t =>
      obtain ⟨back, hrun⟩ := hprepares
      rw [hrun, hrun, x.complete h]
  reached {ask s t err} ht hfails hagree := by
    obtain ⟨r, hprepares, -⟩ := hleaves s
    rw [hprepares.startOf_eq] at ht
    cases r with
    | error err' => cases ht
    | ok u =>
      obtain ⟨back, hrun⟩ := hprepares
      rw [hrun]
      exact x.reached ht hfails hagree
  inTurn s := by
    obtain ⟨r, hprepares, htilde⟩ := hleaves s
    rw [hprepares.startOf_eq]
    cases r with
    | error err =>
      rw [htilde]
      exact .nil
    | ok t =>
      have hbody := x.inTurn t
      rw [htilde.1] at hbody
      rw [htilde.2]
      exact hbody

/-- A step in a mask that is built for it and taken down after it. -/
def inOwnMask (build : Heap → Except EvalError (EnvId × Heap)) (takeDown : Heap → EnvId → Heap)
    (body : EnvId → Asking Value) : Asking Value where
  run ask := Overscope.inOwnMask build takeDown fun mask => (body mask).run ask
  asks s := match build s.heap with
    | .ok (mask, heap) => (body mask).asks { s with heap, held := mask :: s.held }
    | .error _ => []
  complete {ask s} h := by
    rcases hb : build s.heap with err | ⟨mask, heap⟩
    · rw [inOwnMask_error hb, inOwnMask_error hb]
    · rw [hb] at h
      simp only [Overscope.inOwnMask, hb, (body mask).complete h]
  reached {ask s t err} ht hfails hagree := by
    rcases hb : build s.heap with err' | ⟨mask, heap⟩
    · rw [hb] at ht
      cases ht
    · rw [hb] at ht
      simp only [Overscope.inOwnMask, hb]
      exact (body mask).reached ht hfails hagree
  inTurn s := by
    rcases hb : build s.heap with err | ⟨mask, heap⟩
    · rw [inOwnMask_error hb]
      exact .nil
    · simp only [Overscope.inOwnMask, hb]
      exact (body mask).inTurn { s with heap, held := mask :: s.held }

end Asking

/-! ## The evaluator -/

structure AskingOperand where
  code : Expr
  run : EnvId → Asking Value

structure AskingSite where
  head : Head
  operands : List AskingOperand
  object : Option Formula

/-- The operand as it is run. -/
def AskingOperand.bare (op : AskingOperand) : Operand :=
  ⟨op.code, fun env => (op.run env).run baseTilde⟩

/-- The call as it is run. -/
def AskingSite.bare (site : AskingSite) : CallSite :=
  ⟨site.head, site.operands.map AskingOperand.bare, site.object⟩

/-- Evaluates operands from left to right. -/
def askingOperands : List AskingOperand → EnvId → Asking (List Value)
  | [], _ => pure []
  | op :: ops, env => do
    let v ← op.run env
    let vs ← askingOperands ops env
    pure (v :: vs)

namespace AskingSite

variable (mode : Mode) (site : AskingSite)

/-- Applies an operator. -/
def apply (env : EnvId) : Primitive → Asking Value
  | .tilde => pure (site.object.getD ⟨site.head, site.bare.args, some env, .plain⟩).toValue
  | .quote => match site.operands with
    | [op] => pure op.code.quoted
    | ops => .fail (.wrongArgCount "quote" "1 argument" ops.length)
  | .member => match site.operands with
    | [target, member] => do
      let v ← target.run env
      .silent (member.code.memberName >>= fun name => v.member name)
        (silent_bind (silent_memberName _) fun name => silent_member v name)
    | ops => .fail (.wrongArgCount "$" "2 arguments" ops.length)
  | .arithmetic op => do
    let vs ← askingOperands site.operands env
    .silent (.ofExcept (op.apply vs)) (silent_ofExcept _)

/-- Lets the base `~` build a formula. This is where the operator is asked for. -/
def toFormula (env : EnvId) : Asking Value :=
  match site.object with
  | some ⟨head, args, some e, kind⟩ => pure (.formula head args (some e) kind)
  | _ => do
    let p ← .ask
    let v ← .inside (fun _ => nested mode) (leavesTilde_nested mode)
      (apply { site with head := .inlined p, object := none } env p)
    match v with
    | .formula _ args own kind => pure (.formula (.symbol .tilde) args own kind)
    | v => pure v

/-- Evaluates the right-hand side of a quosure in an overscope. -/
def evalQuosure (own : Option EnvId) (overscope top : EnvId) : Asking Value :=
  match site.operands.getLast? with
  | none => pure .missing
  | some rhs =>
    if rhs.code.isMissing then pure .missing
    else if !rhs.code.isSymbolic then rhs.run overscope
    else do
      .silent (requireOnChain overscope top) (silent_requireOnChain overscope top)
      let target ← .silent (targetScope own overscope) (silent_targetScope own overscope)
      .inside (fun _ => withScope overscope top target) (leavesTilde_withScope overscope top target)
        (rhs.run overscope)

/-- What `~` does in an overscope. -/
def overridden (overscope top : EnvId) : Asking Value :=
  match site.object with
  | some ⟨_, _, own, .quosure⟩ => site.evalQuosure own overscope top
  | _ => site.toFormula mode overscope

/-- Evaluates a call. -/
def eval (env : EnvId) : Asking Value :=
  .inside (fun _ => nested mode) (leavesTilde_nested mode) do
    match ← .silent (site.head.resolve env) (silent_resolve site.head env) with
    | .builtin p => site.apply env p
    | .override t => do
      let (mask, top) ← .silent t.frames (silent_frames t)
      site.overridden mode mask top

end AskingSite

mutual

/-- Evaluates an expression. -/
def Expr.asking (mode : Mode) : Expr → EnvId → Asking Value
  | .const v => v.askingInlined mode
  | .symbol name => fun env => do
    match ← .silent (.read (·.heap.resolve? env name)) (silent_read _) with
    | some v => pure v
    | none => .failText name .undefinedVariable
  | .call head args => fun env => (AskingSite.mk head (args.asking mode) none).eval mode env
  | .missing => fun _ => pure .missing
termination_by structural e => e

/-- Evaluates an inlined value. -/
def Value.askingInlined (mode : Mode) : Value → EnvId → Asking Value
  | .formula head args own kind => fun env =>
    (AskingSite.mk head (args.asking mode) (some ⟨head, args, own, kind⟩)).eval mode env
  | v => fun _ => pure v
termination_by structural v => v

/-- Operands with their meanings. -/
def Args.asking (mode : Mode) : Args → List AskingOperand
  | .nil => []
  | .cons e rest => ⟨e, e.asking mode⟩ :: rest.asking mode
termination_by structural args => args

end

/-- The call that a value stands for. -/
def Value.askingSite? (mode : Mode) : Value → Option AskingSite
  | .formula head args own kind => some ⟨head, args.asking mode, some ⟨head, args, own, kind⟩⟩
  | .code (.call head args) => some ⟨head, args.asking mode, none⟩
  | _ => none

/-- Evaluates a `~` call in an overscope. -/
def Value.askingTilde (mode : Mode) (v : Value) (overscope top : EnvId) : Asking Value :=
  match v.askingSite? mode with
  | some site => site.overridden mode overscope top
  | none => .fail (.typeMismatch "`~` call" v.typeName)

/-- Evaluates a `~` call as the base `~` does. -/
def Value.askingFormula (mode : Mode) (v : Value) (env : EnvId) : Asking Value :=
  match v.askingSite? mode with
  | some site => site.toFormula mode env
  | none => .fail (.typeMismatch "`~` call" v.typeName)

/-- Evaluates an expression with data in a mask of its own. -/
def askingInData (mode : Mode) (e : Expr) (data : Value) (env : EnvId) : Asking Value :=
  match data with
  | .null => .inOwnMask (fun h => .ok (h.addQuosureMask env)) (fun h _ => h) (e.asking mode)
  | data => .inOwnMask (·.maskOf data env) Heap.stripMask (e.asking mode)

/-- Evaluates code against data. -/
def askingWithData (mode : Mode) (code data : Value) (env : EnvId) : Asking Value := do
  match ← .silent (.read fun s => data.env?.filter s.heap.isMask) (silent_read _) with
  | some mask => do
    .silent (pointMask mask (code.scopeOr env)) (silent_pointMask mask _)
    code.body.asking mode mask
  | none => askingInData mode code.body data (code.scopeOr env)

/-! ## The run is the evaluator's -/

@[simp]
theorem Asking.run_silent (x : EvalM α) (hx : Silent x) (ask : EvalM Primitive) :
    (silent x hx).run ask = x := rfl

@[simp]
theorem Asking.run_bind (x : Asking α) (f : α → Asking β) (ask : EvalM Primitive) :
    (x >>= f).run ask = x.run ask >>= fun a => (f a).run ask := rfl

theorem run_askingOperands (ops : List AskingOperand) (env : EnvId) :
    (askingOperands ops env).run baseTilde = evalOperands (ops.map AskingOperand.bare) env := by
  induction ops with
  | nil => rfl
  | cons op ops ih =>
    rw [askingOperands, List.map_cons, evalOperands, ← ih]
    rfl

namespace AskingSite

variable (mode : Mode) (site : AskingSite)

theorem run_apply (env : EnvId) (p : Primitive) :
    (site.apply env p).run baseTilde = site.bare.apply env p := by
  obtain ⟨head, ops, object⟩ := site
  cases p with
  | tilde => rfl
  | quote =>
    rcases ops with _ | ⟨op, _ | ⟨op', ops⟩⟩
    · rfl
    · rfl
    · simp only [apply, CallSite.apply, bare, List.map_cons, List.length_cons, List.length_map]
      rfl
  | member =>
    rcases ops with _ | ⟨target, _ | ⟨member, _ | ⟨op, ops⟩⟩⟩
    · rfl
    · rfl
    · rfl
    · simp only [apply, CallSite.apply, bare, List.map_cons, List.length_cons, List.length_map]
      rfl
  | arithmetic op =>
    rw [apply, Asking.run_bind, run_askingOperands]
    rfl

theorem run_toFormula (env : EnvId) :
    (site.toFormula mode env).run baseTilde = site.bare.toFormula mode env := by
  obtain ⟨head, ops, object⟩ := site
  have hbuilt : (toFormula mode ⟨head, ops, none⟩ env).run baseTilde =
      CallSite.toFormula mode ⟨head, ops.map AskingOperand.bare, none⟩ env := by
    show (baseTilde >>= fun p =>
      nested mode ((apply ⟨.inlined p, ops, none⟩ env p).run baseTilde) >>= fun v => _) = _
    simp only [run_apply]
    show _ = (baseTilde >>= fun p => _)
    congr 1
    funext p
    show (_ >>= _) = (_ >>= _)
    congr 1
    funext v
    cases v <;> rfl
  rcases object with _ | ⟨head', args, _ | e, kind⟩
  · exact hbuilt
  · exact hbuilt
  · rfl

theorem run_evalQuosure (own : Option EnvId) (overscope top : EnvId) :
    (site.evalQuosure own overscope top).run baseTilde =
      site.bare.evalQuosure own overscope top := by
  simp only [evalQuosure, CallSite.evalQuosure, bare, List.getLast?_map]
  rcases site.operands.getLast? with _ | rhs
  · rfl
  · simp only [Option.map_some, show rhs.bare.code = rhs.code from rfl]
    split
    · rfl
    split
    · rfl
    · rfl

theorem run_overridden (overscope top : EnvId) :
    (site.overridden mode overscope top).run baseTilde =
      site.bare.overridden mode overscope top := by
  have hquosure := fun own => site.run_evalQuosure own overscope top
  have hformula := site.run_toFormula mode overscope
  obtain ⟨head, ops, object⟩ := site
  rcases object with _ | ⟨_, _, own, _ | _⟩
  · exact hformula
  · exact hformula
  · exact hquosure own

theorem run_eval (env : EnvId) :
    (site.eval mode env).run baseTilde = site.bare.eval mode env := by
  show nested mode (site.head.resolve env >>= _) = nested mode (site.head.resolve env >>= _)
  congr 2
  funext c
  cases c with
  | builtin p => exact site.run_apply env p
  | override t =>
    show (t.frames >>= _) = (t.frames >>= _)
    congr 1
    funext frames
    exact site.run_overridden mode frames.1 frames.2

end AskingSite

mutual

theorem Expr.run_asking (mode : Mode) (e : Expr) (env : EnvId) :
    (e.asking mode env).run baseTilde = e.eval mode env := by
  cases e with
  | const v => exact v.run_askingInlined mode env
  | symbol name =>
    show (Attempt.read _ >>= _) = (Attempt.read _ >>= _)
    congr 1
    funext v
    cases v <;> rfl
  | call head args =>
    show ((AskingSite.mk head (args.asking mode) none).eval mode env).run baseTilde = _
    rw [AskingSite.run_eval, AskingSite.bare, args.bare_asking]
    rfl
  | missing => rfl

theorem Value.run_askingInlined (mode : Mode) (v : Value) (env : EnvId) :
    (v.askingInlined mode env).run baseTilde = v.evalInlined mode env := by
  cases v with
  | formula head args own kind =>
    show ((AskingSite.mk head (args.asking mode)
      (some ⟨head, args, own, kind⟩)).eval mode env).run baseTilde = _
    rw [AskingSite.run_eval, AskingSite.bare, args.bare_asking]
    rfl
  | _ => rfl

theorem Args.bare_asking (mode : Mode) (args : Args) :
    (args.asking mode).map AskingOperand.bare = args.operands mode := by
  cases args with
  | nil => rfl
  | cons e rest =>
    rw [Args.asking, List.map_cons, rest.bare_asking, Args.operands, AskingOperand.bare]
    congr 2
    funext env
    exact e.run_asking mode env

end

theorem Value.bare_askingSite? (mode : Mode) (v : Value) :
    (v.askingSite? mode).map AskingSite.bare = v.callSite? mode := by
  cases v with
  | formula head args own kind =>
    simp only [Value.askingSite?, Value.callSite?, Option.map_some, AskingSite.bare,
      args.bare_asking]
  | code e =>
    cases e with
    | call head args =>
      simp only [Value.askingSite?, Value.callSite?, Option.map_some, AskingSite.bare,
        args.bare_asking]
    | _ => rfl
  | _ => rfl

theorem Value.run_askingTilde (mode : Mode) (v : Value) (overscope top : EnvId) :
    (v.askingTilde mode overscope top).run baseTilde = v.evalTilde mode overscope top := by
  unfold Value.askingTilde Value.evalTilde
  rw [← v.bare_askingSite?]
  rcases v.askingSite? mode with _ | site
  · rfl
  · exact site.run_overridden mode overscope top

theorem Value.run_askingFormula (mode : Mode) (v : Value) (env : EnvId) :
    (v.askingFormula mode env).run baseTilde = v.toFormula mode env := by
  unfold Value.askingFormula Value.toFormula
  rw [← v.bare_askingSite?]
  rcases v.askingSite? mode with _ | site
  · rfl
  · exact site.run_toFormula mode env

theorem run_askingInData (mode : Mode) (e : Expr) (data : Value) (env : EnvId) :
    (askingInData mode e data env).run baseTilde = evalInOwnMask mode e data env := by
  have hbody : (fun mask => (e.asking mode mask).run baseTilde) = e.eval mode :=
    funext (e.run_asking mode)
  cases data <;> simp only [askingInData, Asking.inOwnMask, evalInOwnMask, hbody]

theorem run_askingWithData (mode : Mode) (code data : Value) (env : EnvId) :
    (askingWithData mode code data env).run baseTilde = evalWithData mode code data env := by
  rw [askingWithData, evalWithData, Asking.run_bind]
  congr 1
  funext found
  cases found with
  | none => exact run_askingInData mode code.body data _
  | some mask =>
    show pointMask mask _ >>= _ = evalInMask mode code.body mask _
    rw [evalInMask]
    congr 1
    funext _
    exact code.body.run_asking mode mask

end Overscope
