-- The procedure returns, with what the evaluator gives. Each form of the procedure computes
-- the step of the same name, from any state without a cycle. The states in between are such
-- states again, also while a top frame is spliced: a scope that has the top frame on its own
-- chain is refused, and everything that was rewired is put back.
import Overscope.Proofs.Procedure
import Overscope.Proofs.PutBack
import Overscope.Proofs.Steps

namespace Overscope

variable {mode : Mode} {α β : Type} {s t : State}

/-! ## What procedures compute -/

/-- From every sound state the procedure returns, with the outcome of the step. -/
def Proc.Computes (mode : Mode) (p : Proc α) (x : EvalM α) : Prop :=
  ∀ s : State, s.Sound → Runs mode p s (x s)

theorem runs_bind_ok {p : Proc α} {k : α → Proc β} {a : α} {out : Except EvalError β × State}
    (hp : Runs mode p s (.ok a, t)) (hk : Runs mode (k a) t out) : Runs mode (p >>= k) s out :=
  .attempt hp hk

theorem runs_bind_error {p : Proc α} {k : α → Proc β} {err : EvalError}
    (hp : Runs mode p s (.error err, t)) : Runs mode (p >>= k) s (.error err, t) :=
  .attempt hp (.step (.fail err) t)

/-- What a step reads goes on into the rest. -/
theorem runs_read {f : State → α} {k : α → Proc β} {out : Except EvalError β × State}
    (hk : Runs mode (k (f s)) s out) : Runs mode (.step (.read f) >>= k) s out :=
  runs_bind_ok (.step (.read f) s) hk

theorem runs_update {f : State → State} {k : Unit → Proc β} {out : Except EvalError β × State}
    (hk : Runs mode (k ()) (f s) out) : Runs mode (.step (.update f) >>= k) s out :=
  runs_bind_ok (.step (.update f) s) hk

namespace Proc

theorem computes_step (x : EvalM α) : (Proc.step x).Computes mode x := fun s _ => .step x s

theorem computes_bind {p : Proc α} {k : α → Proc β} {x : EvalM α} {f : α → EvalM β}
    (hp : p.Computes mode x) (hx : PutsBack x) (hk : ∀ a, (k a).Computes mode (f a)) :
    (p >>= k).Computes mode (x >>= f) := by
  intro s hs
  have hfirst := hp s hs
  have hsound := (hx s hs.settled).sound hs
  rw [Attempt.bind_run]
  rcases hr : x s with ⟨err | a, t⟩
  · rw [hr] at hfirst
    exact runs_bind_error hfirst
  · rw [hr] at hfirst hsound
    exact runs_bind_ok hfirst (hk a t hsound)

theorem computes_evaluate {e : Expr} {env : EnvId} {x : EvalM Value}
    (he : (e.proc mode env).Computes mode x) : (evaluate e env).Computes mode x :=
  fun s hs => .eval (he s hs) (.step _ _)

end Proc

/-! ## Looking around -/

theorem runs_up (hac : s.heap.Acyclic) (stop : Heap → EnvId → Bool) (e : EnvId) :
    Runs mode (Proc.up stop e) s
      (.ok ((s.heap.chain e).take ((s.heap.chain e).findIdx (stop s.heap) + 1),
        (s.heap.chain e).find? (stop s.heap)), s) :=
  .walk hac (s.heap.walk_chain hac (stop s.heap) e) (.step (pure _) s)

theorem runs_onChain (hac : s.heap.Acyclic) (e other : EnvId) :
    Runs mode (Proc.onChain e other) s (.ok (s.heap.hasAncestor e other), s) := by
  have hfound : ((s.heap.chain e).find? (· == other)).isSome = s.heap.hasAncestor e other := by
    rw [Bool.eq_iff_iff, Heap.hasAncestor_iff, List.find?_isSome]
    simp
  rw [← hfound]
  exact runs_bind_ok (runs_up hac _ e) (.step (pure _) s)

/-- The first of some values is the value at the first place that has one. -/
theorem findSome?_eq_bind_find? {ι γ : Type} (f : ι → Option γ) (is : List ι) :
    is.findSome? f = (is.find? fun i => (f i).isSome).bind f := by
  induction is with
  | nil => rfl
  | cons i is ih =>
    rcases hi : f i with _ | c
    · rw [List.findSome?_cons_of_isNone (by rw [hi]; rfl), List.find?_cons_of_neg (by simp [hi]),
        ih]
    · rw [List.findSome?_cons_of_isSome (by rw [hi]; rfl), List.find?_cons_of_pos (by simp [hi]),
        hi]
      exact hi.symm

theorem computes_lookup (accept : Value → Bool) (name : Name) (env : EnvId) :
    (Proc.lookup accept name env).Computes mode
      (.read (·.heap.resolveWhere? env name accept)) := by
  intro s hs
  have hstop : (fun f => ((s.heap.local? f name).filter accept).isSome) =
      fun f => (s.heap.local? f name).any accept := by
    funext f
    rw [Option.isSome_filter]
  have hvalue : s.heap.resolveWhere? env name accept =
      ((s.heap.chain env).find? fun f => (s.heap.local? f name).any accept).bind
        fun f => s.heap.local? f name := by
    rw [Heap.resolveWhere?, findSome?_eq_bind_find?, hstop]
    rcases hf : (s.heap.chain env).find? fun f => (s.heap.local? f name).any accept with _ | f
    · rfl
    · have haccepted := List.find?_some hf
      rcases hv : s.heap.local? f name with _ | v
      · simp [hv]
      · rw [hv] at haccepted
        simpa [hv] using haccepted
  have hrun := @runs_up mode s hs.acyclic (fun h f => (h.local? f name).any accept) env
  show Runs mode _ s (.ok (s.heap.resolveWhere? env name accept), s)
  rw [hvalue]
  exact runs_bind_ok hrun (.step (.read _) s)

theorem Heap.resolveWhere?_true (h : Heap) (env : EnvId) (name : Name) :
    h.resolveWhere? env name (fun _ => true) = h.resolve? env name := by
  have hkeep : ∀ found : Option Value, found.filter (fun _ => true) = found := by
    intro found
    cases found <;> rfl
  simp only [resolveWhere?, resolve?, hkeep]

/-! ## Around a body -/

theorem runs_around {enter leave : State → State} {p : Proc α} {r : Except EvalError α}
    (hp : Runs mode p (enter s) (r, t)) : Runs mode (Proc.around enter leave p) s (r, leave t) :=
  runs_update (.attempt hp (runs_update (.step (.ofExcept r) (leave t))))

theorem computes_deeper {p : Proc α} {x : EvalM α} (hp : p.Computes mode x) :
    (Proc.deeper mode p).Computes mode (nested mode x) := by
  intro s hs
  have hbody : Runs mode (Proc.around (fun s => { s with depth := s.depth + 1 })
      (fun s => { s with depth := s.depth - 1 }) p) s (nested.deeper x s) :=
    runs_around (hp { s with depth := s.depth + 1 } ⟨hs.acyclic, hs.settled⟩)
  apply runs_read
  unfold nested
  cases mode with
  | unlimited => exact hbody
  | restricted limit =>
    by_cases hdeep : limit < s.depth + 1
    · simp only [Mode.limit?, Option.filter, hdeep, decide_true, if_true]
      exact .step (.fail _) s
    · simp only [Mode.limit?, Option.filter, hdeep, decide_false, if_false]
      exact hbody

/-- What holds a guard computes what holds it, from where the guard is in force. -/
theorem runs_guarded {p : Proc α} {x : EvalM α} {guard : Guard} {heap : Heap}
    (hp : Runs mode p (s.guarded guard heap) (x (s.guarded guard heap))) :
    Runs mode (Proc.guarded guard p) { s with heap } (underGuard guard x { s with heap }) :=
  runs_read (runs_around hp)

theorem sound_rebound (hs : s.Sound) (e : EnvId) (name : Name) (v : Value) :
    (s.rebound e name v).Sound :=
  ⟨Heap.acyclic_bind hs.acyclic e name v, State.settled_rebound hs.settled e name v⟩

/-- A frame that is not on the chain of its new parent closes no cycle. -/
theorem sound_rehung (hs : s.Sound) {e parent : EnvId} (hoff : ¬ s.heap.hasAncestor parent e) :
    (s.rehung e parent).Sound :=
  ⟨Heap.acyclic_setParent hs.acyclic hoff, Heap.settled_setParent hs.settled e (some parent)⟩

theorem computes_withBinding {p : Proc α} {x : EvalM α} (hp : p.Computes mode x) (e : EnvId)
    (name : Name) (v : Value) :
    (Proc.withBinding e name v p).Computes mode (withBinding e name v x) := by
  intro s hs
  apply runs_read
  apply runs_update
  exact runs_guarded (hp _ (sound_rebound hs e name v))

theorem computes_withParent {p : Proc α} {x : EvalM α} (hp : p.Computes mode x)
    (e parent : EnvId) :
    (Proc.withParent e parent p).Computes mode (withParent e parent x) := by
  intro s hs
  apply runs_bind_ok (runs_onChain hs.acyclic parent e)
  by_cases hon : s.heap.hasAncestor parent e
  · rw [withParent_run_error hon, if_pos hon]
    exact .step (.fail _) s
  · rw [withParent_run_ok hon, if_neg hon]
    apply runs_read
    apply runs_update
    exact runs_guarded (hp _ (sound_rehung hs hon))

theorem computes_withScope {p : Proc α} {x : EvalM α} (hp : p.Computes mode x)
    (overscope top target : EnvId) :
    (Proc.withScope overscope top target p).Computes mode (withScope overscope top target x) := by
  intro s hs
  have hparent := computes_withParent hp top target
  apply runs_read
  rw [withScope_run]
  split
  · exact computes_withBinding hparent overscope .env (.env target) s hs
  · exact hparent s hs

/-! ## Calls -/

/-- The procedure of the expression computes its evaluation. -/
def Expr.Computed (mode : Mode) (e : Expr) : Prop :=
  ∀ env, (e.proc mode env).Computes mode (e.eval mode env)

theorem putsBack_evalEach (mode : Mode) (es : List Expr) (env : EnvId) :
    PutsBack (evalOperands (es.map fun e => ⟨e, e.eval mode⟩) env) := by
  apply putsBack_evalOperands
  intro op hop
  obtain ⟨e, -, rfl⟩ := List.mem_map.1 hop
  exact e.putsBack_eval mode

theorem computes_evalEach {es : List Expr} (hes : ∀ e ∈ es, e.Computed mode) (env : EnvId) :
    (Proc.evalEach es env).Computes mode
      (evalOperands (es.map fun e => ⟨e, e.eval mode⟩) env) := by
  induction es with
  | nil => exact Proc.computes_step _
  | cons e es ih =>
    rw [List.forall_mem_cons] at hes
    apply Proc.computes_bind (Proc.computes_evaluate (hes.1 env)) (e.putsBack_eval mode env)
    intro v
    exact Proc.computes_bind (ih hes.2) (putsBack_evalEach mode es env) fun _ =>
      Proc.computes_step _

section Calls

variable {args : Args}

theorem computes_apply (head : Head) (object : Option Formula) (env : EnvId)
    (hargs : ∀ e ∈ args.toList, e.Computed mode) (p : Primitive) :
    (Proc.apply head args object env p).Computes mode
      ((CallSite.mk head (args.operands mode) object).apply env p) := by
  cases p with
  | tilde =>
    rw [CallSite.apply, CallSite.args_operands]
    exact Proc.computes_step _
  | quote =>
    rw [Proc.apply, CallSite.apply, Args.operands_eq_map]
    rcases args.toList with _ | ⟨e, _ | ⟨e', es⟩⟩
    · exact Proc.computes_step _
    · exact Proc.computes_step _
    · simp only [List.map_cons, List.length_cons, List.length_map]
      exact Proc.computes_step _
  | member =>
    rw [Proc.apply, CallSite.apply, Args.operands_eq_map]
    rcases hes : args.toList with _ | ⟨target, _ | ⟨name, _ | ⟨e, es⟩⟩⟩
    · exact Proc.computes_step _
    · exact Proc.computes_step _
    · have htarget : target ∈ args.toList := by
        rw [hes]
        exact List.mem_cons_self ..
      apply Proc.computes_bind (Proc.computes_evaluate (hargs target htarget env))
        (target.putsBack_eval mode env)
      exact fun _ => Proc.computes_step _
    · simp only [List.map_cons, List.length_cons, List.length_map]
      exact Proc.computes_step _
  | arithmetic op =>
    rw [CallSite.apply, Args.operands_eq_map]
    exact Proc.computes_bind (computes_evalEach hargs env) (putsBack_evalEach mode _ env) fun _ =>
      Proc.computes_step _

/-- A call with an operator in its head applies it, one call deeper. -/
theorem Expr.computed_inlined (hargs : ∀ e ∈ args.toList, e.Computed mode) (p : Primitive)
    (env : EnvId) :
    ((Expr.call (.inlined p) args).proc mode env).Computes mode
      (nested mode ((CallSite.mk (.inlined p) (args.operands mode) none).apply env p)) :=
  computes_deeper (computes_apply (.inlined p) none env hargs p)

theorem computes_toFormula (head : Head) (object : Option Formula) (env : EnvId)
    (hargs : ∀ e ∈ args.toList, e.Computed mode) :
    (Proc.toFormula args object env).Computes mode
      ((CallSite.mk head (args.operands mode) object).toFormula mode env) := by
  have happly : ∀ p, PutsBack (nested mode
      ((CallSite.mk (.inlined p) (args.operands mode) none).apply env p)) := fun p =>
    putsBack_nested mode (CallSite.putsBack_apply (args.putsBack_operands mode) env p)
  unfold Proc.toFormula CallSite.toFormula
  rcases object with _ | ⟨head', args', _ | e, kind⟩
  case some.some => exact Proc.computes_step _
  all_goals
    apply Proc.computes_bind (Proc.computes_step _) putsBack_baseTilde
    intro p
    apply Proc.computes_bind (Proc.computes_evaluate (Expr.computed_inlined hargs p env)) (happly p)
    intro v
    cases v <;> exact Proc.computes_step _

/-- What is done where the top frame is on the chain of the overscope. -/
theorem computes_onChain {p : Proc α} {x : EvalM α} (hp : p.Computes mode x)
    (overscope top : EnvId) :
    (do if ← Proc.onChain overscope top then p else Proc.fail .notAnAncestor : Proc α).Computes mode
      (do requireOnChain overscope top; x) := by
  intro s hs
  apply runs_bind_ok (runs_onChain hs.acyclic overscope top)
  simp only [requireOnChain, Attempt.bind_run, Attempt.read]
  split
  · exact hp s hs
  · exact .step (.fail _) s

theorem computes_evalQuosure (head : Head) (object : Option Formula) (own : Option EnvId)
    (overscope top : EnvId) (hargs : ∀ e ∈ args.toList, e.Computed mode) :
    (Proc.evalQuosure args own overscope top).Computes mode
      ((CallSite.mk head (args.operands mode) object).evalQuosure own overscope top) := by
  unfold Proc.evalQuosure CallSite.evalQuosure
  simp only [Args.operands_eq_map, List.getLast?_map]
  rcases hlast : args.toList.getLast? with _ | rhs
  · exact Proc.computes_step _
  · have hrhs := Proc.computes_evaluate (hargs rhs (List.mem_of_getLast? hlast) overscope)
    simp only [Option.map_some]
    split
    · exact Proc.computes_step _
    split
    · exact hrhs
    · apply computes_onChain
      apply Proc.computes_bind (Proc.computes_step _) (putsBack_targetScope own overscope)
      exact fun target => computes_withScope hrhs overscope top target

theorem computes_overridden (head : Head) (object : Option Formula) (overscope top : EnvId)
    (hargs : ∀ e ∈ args.toList, e.Computed mode) :
    (Proc.overridden args object overscope top).Computes mode
      ((CallSite.mk head (args.operands mode) object).overridden mode overscope top) := by
  rcases object with _ | ⟨head', args', own, _ | _⟩
  · exact computes_toFormula head none overscope hargs
  · exact computes_toFormula head _ overscope hargs
  · exact computes_evalQuosure head _ own overscope top hargs

theorem computes_call (head : Head) (object : Option Formula) (env : EnvId)
    (hargs : ∀ e ∈ args.toList, e.Computed mode) :
    (Proc.call mode head args object env).Computes mode
      ((CallSite.mk head (args.operands mode) object).eval mode env) := by
  apply computes_deeper
  cases head with
  | inlined p => exact computes_apply (.inlined p) object env hargs p
  | symbol name =>
    intro s hs
    apply runs_bind_ok (computes_lookup Value.isCallable name env s hs)
    simp only [Head.resolve, Attempt.bind_run, Attempt.read]
    rcases (s.heap.resolveWhere? env name Value.isCallable).bind Value.callable? with _ | p | t
    · exact .step _ s
    · exact computes_apply (.symbol name) object env hargs p s hs
    · have hoverride := Proc.computes_bind (Proc.computes_step t.frames)
        (putsBack_frames t) fun frames =>
          computes_overridden (.symbol name) object frames.1 frames.2 hargs
      exact hoverride s hs

end Calls

/-! ## Expressions -/

mutual

/-- Every expression is computed, by recursion on the expression alone. -/
theorem Expr.computed (mode : Mode) (e : Expr) : e.Computed mode := by
  intro env
  cases e with
  | const v => exact v.computed_inlined mode env
  | symbol name =>
    intro s hs
    apply runs_bind_ok (computes_lookup (fun _ => true) name env s hs)
    simp only [Expr.eval, Attempt.bind_run, Attempt.read, Heap.resolveWhere?_true]
    rcases s.heap.resolve? env name with _ | v
    · exact .step _ s
    · exact .step _ s
  | call head args => exact computes_call head none env (args.computed mode)
  | missing => exact Proc.computes_step _

theorem Value.computed_inlined (mode : Mode) (v : Value) (env : EnvId) :
    ((Expr.const v).proc mode env).Computes mode (v.evalInlined mode env) := by
  cases v with
  | formula head args own kind => exact computes_call head _ env (args.computed mode)
  | _ => exact Proc.computes_step _

theorem Args.computed (mode : Mode) (args : Args) : ∀ e ∈ args.toList, e.Computed mode := by
  cases args with
  | nil =>
    intro e he
    cases he
  | cons e rest =>
    intro e' he
    rcases List.mem_cons.1 he with hfirst | hrest
    · rw [hfirst]
      exact e.computed mode
    · exact rest.computed mode e' hrest

end

/-- `~` calls in an overscope. -/
theorem Value.computes_tildeProc (mode : Mode) (v : Value) (overscope top : EnvId) :
    (v.tildeProc overscope top).Computes mode (v.evalTilde mode overscope top) := by
  cases v with
  | formula head args own kind =>
    exact computes_overridden head _ overscope top (args.computed mode)
  | code e =>
    cases e with
    | call head args => exact computes_overridden head none overscope top (args.computed mode)
    | _ => exact Proc.computes_step _
  | _ => exact Proc.computes_step _

/-- `~` calls as the base `~` evaluates them. -/
theorem Value.computes_formulaProc (mode : Mode) (v : Value) (env : EnvId) :
    (v.formulaProc env).Computes mode (v.toFormula mode env) := by
  cases v with
  | formula head args own kind => exact computes_toFormula head _ env (args.computed mode)
  | code e =>
    cases e with
    | call head args => exact computes_toFormula head none env (args.computed mode)
    | _ => exact Proc.computes_step _
  | _ => exact Proc.computes_step _

end Overscope
