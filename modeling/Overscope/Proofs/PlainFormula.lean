-- Plain formulas. A call of `~` that is no quosure goes from the override of a mask to the base
-- `~`, which has the operator itself in the head of the call, so that it cannot come back to the
-- override. The formula then gets the symbol `~` back as its head. So it is the formula that `~`
-- builds where nothing overrides it, and no operand was evaluated on the way.
import Overscope.Proofs.Splicing

namespace Overscope

/-- What `~` makes of operands in an environment. -/
def Value.plainFormula (args : Args) (env : EnvId) : Value :=
  .formula (.symbol .tilde) args (some env) .plain

/-- A call of the operands, whatever its head: quoted, or as a formula object without an
environment. -/
inductive Value.CallsWith (args : Args) : Value → Prop where
  | code (head : Head) : CallsWith args (.code (.call head args))
  | formula (head : Head) (kind : FormulaKind) : CallsWith args (.formula head args none kind)

/-- The state in which the operator of base `~` is known. -/
def State.withTilde (s : State) (p : Primitive) : State := { s with tilde := some p }

/-! ## By the base operator -/

/-- An operator that base `~` has at one depth it has at any. -/
theorem baseTilde_run {s : State} {p : Primitive} (h : (baseTilde s).1 = .ok p) (d : Nat) :
    baseTilde { s with depth := d } = (.ok p, { s.withTilde p with depth := d }) := by
  obtain ⟨interner, heap, depth, tilde, held⟩ := s
  cases tilde with
  | some q =>
    cases h
    rfl
  | none =>
    simp only [baseTilde, Attempt.bind_run, Attempt.read] at h ⊢
    rcases hw : heap.local? .base .tilde with _ | w
    · rw [hw] at h
      cases h
    · rw [hw] at h
      cases w with
      | builtin q =>
        cases h
        rfl
      | _ => cases h

/-- The operator in the head of a call builds the formula, one call deeper. -/
theorem CallSite.nested_apply_tilde (ops : List Operand) (env : EnvId) (s : State) :
    nested .unlimited (CallSite.apply ⟨.inlined .tilde, ops, none⟩ env .tilde) s =
      (.ok (.formula (.inlined .tilde) (.ofList (ops.map Operand.code)) (some env) .plain), s) :=
  nested_unlimited_run rfl rfl

section
variable {s : State}

/-- The operands are those of the call, whatever evaluating them does. -/
theorem CallSite.toFormula_run (site : CallSite) (hobject : ∀ f ∈ site.object, f.env = none)
    (hbase : (baseTilde s).1 = .ok .tilde) (env : EnvId) :
    site.toFormula .unlimited env s = (.ok (.plainFormula site.args env), s.withTilde .tilde) := by
  obtain ⟨head, ops, object⟩ := site
  have hknown : baseTilde s = (.ok .tilde, s.withTilde .tilde) := baseTilde_run hbase s.depth
  have hbuilt : CallSite.toFormula .unlimited ⟨head, ops, none⟩ env s =
      (.ok (.plainFormula (.ofList (ops.map Operand.code)) env), s.withTilde .tilde) := by
    show (baseTilde >>= fun p =>
      nested .unlimited (CallSite.apply ⟨.inlined p, ops, none⟩ env p) >>= _) s = _
    rw [Attempt.bind_run_ok hknown, Attempt.bind_run_ok (CallSite.nested_apply_tilde ops env _)]
    rfl
  -- An object without an environment is built anew, as a call without an object is.
  rcases object with _ | ⟨head', args, _ | e, kind⟩
  · exact hbuilt
  · exact hbuilt
  · cases hobject _ rfl

/-- The call that the operator in its head makes is the only evaluation that is started. -/
theorem TracedSite.visits_toFormula (site : TracedSite)
    (hobject : ∀ f ∈ site.object, f.env = none) (hbase : (baseTilde s).1 = .ok .tilde)
    (env : EnvId) :
    (site.toFormula .unlimited env).visits s =
      [⟨.call (.inlined .tilde) site.bare.args, env, s.withTilde .tilde⟩] := by
  obtain ⟨head, ops, object⟩ := site
  have hknown : baseTilde s = (.ok .tilde, s.withTilde .tilde) := baseTilde_run hbase s.depth
  have hbuilt : (TracedSite.toFormula .unlimited ⟨head, ops, none⟩ env).visits s =
      [⟨.call (.inlined .tilde) (TracedSite.mk head ops none).bare.args, env,
        s.withTilde .tilde⟩] := by
    have hinside : (Traced.inside (fun _ => nested .unlimited)
        (TracedSite.apply ⟨.inlined .tilde, ops, none⟩ env .tilde)).visits (s.withTilde .tilde) =
          [] :=
      visits_inside_ok (prepares_nested_unlimited _) _
    show (Traced.silent baseTilde >>= fun p =>
      Traced.evaluates (.call (.inlined p) (TracedSite.mk head ops none).bare.args) env
        (Traced.inside (fun _ => nested .unlimited)
          (TracedSite.apply ⟨.inlined p, ops, none⟩ env p)) >>= _).visits s = _
    rw [Traced.visits_silent_bind_ok hknown,
      Traced.visits_bind_ok (CallSite.nested_apply_tilde (ops.map TracedOperand.bare) env _)]
    show _ :: (Traced.inside _ _).visits _ ++ [] = _
    rw [hinside]
    rfl
  rcases object with _ | ⟨head', args, _ | e, kind⟩
  · exact hbuilt
  · exact hbuilt
  · cases hobject _ rfl

end

theorem TracedSite.args_bare_traced (mode : Mode) (head : Head) (args : Args)
    (object : Option Formula) :
    (TracedSite.mk head (args.traced mode) object).bare.args = args := by
  rw [TracedSite.bare, args.bare_traced, CallSite.args_operands]

namespace Value.CallsWith

variable {args : Args} {v : Value} (hv : v.CallsWith args)

include hv

theorem exists_site (mode : Mode) : ∃ site : TracedSite, site.bare.args = args ∧
    (∀ f ∈ site.object, f.env = none) ∧
    ∀ env, v.traceFormula mode env = site.toFormula mode env := by
  cases hv with
  | code head =>
    refine ⟨⟨head, args.traced mode, none⟩, TracedSite.args_bare_traced .., ?_, fun _ => rfl⟩
    intro f hf
    cases hf
  | formula head kind =>
    refine ⟨⟨head, args.traced mode, some ⟨head, args, none, kind⟩⟩,
      TracedSite.args_bare_traced .., ?_, fun _ => rfl⟩
    intro f hf
    cases hf
    rfl

variable {s : State} (hbase : (baseTilde s).1 = .ok .tilde)

include hbase

theorem toFormula_run (env : EnvId) :
    v.toFormula .unlimited env s = (.ok (.plainFormula args env), s.withTilde .tilde) := by
  obtain ⟨site, hargs, hobject, htrace⟩ := hv.exists_site .unlimited
  rw [← v.run_traceFormula, htrace, site.run_toFormula,
    site.bare.toFormula_run hobject hbase, hargs]

theorem visits_traceFormula (env : EnvId) :
    (v.traceFormula .unlimited env).visits s =
      [⟨.call (.inlined .tilde) args, env, s.withTilde .tilde⟩] := by
  obtain ⟨site, hargs, hobject, htrace⟩ := hv.exists_site .unlimited
  rw [htrace, site.visits_toFormula hobject hbase, hargs]

end Value.CallsWith

/-! ## In a mask -/

/-- A call goes on with the callable that its head stands for. -/
theorem Expr.eval_call_of_callable {mode : Mode} {env : EnvId} {s : State} {name : Name}
    {c : Callable} (hc : ((Head.symbol name).resolve env s).1 = .ok c) (args : Args) :
    (Expr.call (.symbol name) args).eval mode env s =
      nested mode
        ((CallSite.mk (.symbol name) (args.operands mode) none).dispatch mode env c) s := by
  rw [Expr.eval_call_of_resolve fun w hw _ => Head.resolve_of_heap hw hc]
  rfl

/-- Where `~` stands for the operator it builds the formula, and learns nothing. -/
theorem eval_tilde_of_builtin {env : EnvId} {s : State}
    (hc : ((Head.symbol .tilde).resolve env s).1 = .ok (.builtin .tilde)) (args : Args) :
    (Expr.call (.symbol .tilde) args).eval .unlimited env s =
      (.ok (.plainFormula args env), s) := by
  rw [Expr.eval_call_of_callable hc]
  refine nested_unlimited_run rfl ?_
  show (Except.ok (Value.formula _ (CallSite.mk _ (args.operands _) none).args _ _), _) = _
  rw [CallSite.args_operands]
  rfl

section
variable {s : State} {mask top : EnvId}
  (hown : s.heap.local? mask .tilde = some (.override ⟨mask, top⟩))

include hown

variable (hl : s.heap.isLive top)

include hl

theorem frames_of_override : (Override.mk mask top).frames s = (.ok (mask, top), s) :=
  Override.frames_of_isLive (Heap.isLive_of_local? hown) hl

variable (hbase : (baseTilde s).1 = .ok .tilde) (args : Args)

include hbase

/-- The override of a mask lets the base operator build the formula. -/
theorem eval_tilde_of_override :
    (Expr.call (.symbol .tilde) args).eval .unlimited mask s =
      (.ok (.plainFormula args mask), s.withTilde .tilde) := by
  rw [Expr.eval_call_of_callable (congrArg Prod.fst (resolve_tilde_of_override hown))]
  -- One call deeper the override is the same, and so is what base `~` is known to be.
  refine nested_unlimited_run rfl ?_
  have hframes := frames_of_override (s := { s with depth := s.depth + 1 }) hown hl
  have hformula := CallSite.toFormula_run ⟨.symbol .tilde, args.operands .unlimited, none⟩
    (fun f hf => by cases hf) (congrArg Prod.fst (baseTilde_run hbase (s.depth + 1))) mask
  rw [CallSite.args_operands] at hformula
  show (Override.frames ⟨mask, top⟩ >>= fun frames => CallSite.overridden .unlimited
    ⟨.symbol .tilde, args.operands .unlimited, none⟩ frames.1 frames.2) _ = _
  rw [Attempt.bind_run_ok hframes]
  exact hformula

theorem visits_tilde_of_override :
    ((Expr.call (.symbol .tilde) args).trace .unlimited mask).visits s =
      [⟨.call (.symbol .tilde) args, mask, s⟩,
        ⟨.call (.inlined .tilde) args, mask,
          { s.withTilde .tilde with depth := s.depth + 1 }⟩] := by
  have hresolve := resolve_tilde_of_override (s := { s with depth := s.depth + 1 }) hown
  have hframes := frames_of_override (s := { s with depth := s.depth + 1 }) hown hl
  have hformula := TracedSite.visits_toFormula ⟨.symbol .tilde, args.traced .unlimited, none⟩
    (fun f hf => by cases hf) (congrArg Prod.fst (baseTilde_run hbase (s.depth + 1))) mask
  rw [TracedSite.args_bare_traced] at hformula
  show _ :: (Traced.inside (fun _ => nested .unlimited) _).visits s = _
  rw [visits_inside_ok (prepares_nested_unlimited s), Traced.visits_silent_bind_ok hresolve]
  show _ :: (Traced.silent (Override.frames ⟨mask, top⟩) >>= _).visits _ = _
  rw [Traced.visits_silent_bind_ok hframes]
  exact congrArg (List.cons _) hformula

end

/-- What `~` and the base operator make of operands, with and without the override of a mask. No
operand is evaluated, and no frame is written: at most the operator of base `~` is learned. -/
structure State.KeepsPlain (s : State) (mask : EnvId) (args : Args) : Prop where
  /-- In the mask `~` makes a formula with the mask as its environment. -/
  inMask : (Expr.call (.symbol .tilde) args).eval .unlimited mask s =
    (.ok (.plainFormula args mask), s.withTilde .tilde)
  /-- There are two calls on the way: the one by name, and the one with the operator in its
  head. -/
  visits_inMask : ((Expr.call (.symbol .tilde) args).trace .unlimited mask).visits s =
    [⟨.call (.symbol .tilde) args, mask, s⟩,
      ⟨.call (.inlined .tilde) args, mask, { s.withTilde .tilde with depth := s.depth + 1 }⟩]
  /-- The formula is the one that `~` makes where its name stands for the operator. -/
  elsewhere : ∀ (env : EnvId) (t : State),
    ((Head.symbol .tilde).resolve env t).1 = .ok (.builtin .tilde) →
      (Expr.call (.symbol .tilde) args).eval .unlimited env t = (.ok (.plainFormula args env), t)
  /-- The base operator makes it of any call of the operands, in any environment. -/
  toFormula : ∀ v : Value, v.CallsWith args → ∀ env,
    v.toFormula .unlimited env s = (.ok (.plainFormula args env), s.withTilde .tilde)
  visits_toFormula : ∀ v : Value, v.CallsWith args → ∀ env,
    (v.traceFormula .unlimited env).visits s =
      [⟨.call (.inlined .tilde) args, env, s.withTilde .tilde⟩]
  /-- It leaves the formula as it is, in any environment. -/
  again : ∀ (mode : Mode) (env env' : EnvId) (t : State),
    (Value.plainFormula args env).toFormula mode env' t = (.ok (.plainFormula args env), t)

/-- The override of a mask, with or without data, does nothing to a plain formula. -/
theorem keepsPlain_of_override {s : State} {mask top : EnvId}
    (hown : s.heap.local? mask .tilde = some (.override ⟨mask, top⟩)) (hl : s.heap.isLive top)
    (hbase : (baseTilde s).1 = .ok .tilde) (args : Args) : s.KeepsPlain mask args where
  inMask := eval_tilde_of_override hown hl hbase args
  visits_inMask := visits_tilde_of_override hown hl hbase args
  elsewhere := fun _ _ hc => eval_tilde_of_builtin hc args
  toFormula := fun _ hv env => hv.toFormula_run hbase env
  visits_toFormula := fun _ hv env => hv.visits_traceFormula hbase env
  again := fun _ _ _ _ => rfl

/-- The sample state with a mask ⟨5⟩ without data inside of the global environment. -/
def State.sampleTwoMasks : State :=
  { State.sample with
    heap := (State.sample.heap.addQuosureMask .global).2
    held := [.base, .global, ⟨4⟩, ⟨5⟩] }

/-- In either mask, of an unbound name, a quotient that fails, and a quosure that gives `2`. -/
theorem keepsPlain_of_override_sampleTwoMasks :
    let quotient := Expr.call (.inlined (.arithmetic .div))
      (.ofList [.const (.int 1), .const (.int 0)])
    let args := Args.ofList
      [.symbol ⟨14⟩, quotient, .const (Formula.quosure (.symbol ⟨12⟩) (some .global)).toValue]
    let s := State.sampleTwoMasks
    s.Sound ∧ s.heap.local? ⟨4⟩ .tilde = some (.override ⟨⟨4⟩, ⟨3⟩⟩) ∧
      s.heap.local? ⟨5⟩ .tilde = some (.override ⟨⟨5⟩, ⟨5⟩⟩) ∧
      (baseTilde s).1 = .ok .tilde ∧ s.KeepsPlain ⟨4⟩ args ∧ s.KeepsPlain ⟨5⟩ args ∧
      args.toList.map (fun e => (e.eval .unlimited ⟨4⟩ s).1.toOption.map (· == .int 2)) =
        [none, none, some true] := by
  intro quotient args s
  have hbase : (baseTilde s).1 = .ok .tilde := rfl
  refine ⟨⟨by decide, by decide⟩, rfl, rfl, hbase, ?_, ?_, by decide +kernel⟩
  · exact keepsPlain_of_override rfl (by decide) hbase args
  · exact keepsPlain_of_override rfl (by decide) hbase args

end Overscope
