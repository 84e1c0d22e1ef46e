-- Every evaluation ends, in any scope graph without a cycle of parents. The bindings may
-- refer back to each other as they like, since no walk follows them and no evaluation goes on
-- with what a name means.
import Overscope.Proofs.Adequacy
import Overscope.Proofs.Recursion

namespace Overscope

variable {mode : Mode} {s : State}

/-! ## Masks built and taken down -/

theorem runs_alloc {make : Heap → EnvId × Heap} {α : Type} {k : EnvId → Proc α}
    {out : Except EvalError α × State}
    (hk : Runs mode (k (make s.heap).1) { s with heap := (make s.heap).2 } out) :
    Runs mode (Proc.alloc make >>= k) s out :=
  runs_bind_ok (runs_read (runs_update (.step (pure _) _))) hk

/-- A new mask over one frame of data. The frame is looked for on its own chain first. -/
theorem runs_maskOver (hac : s.heap.Acyclic) (bottom scope : EnvId) :
    Runs mode (Proc.maskOver bottom scope) s
      (.ok (s.heap.addMask bottom bottom scope).1,
        { s with heap := (s.heap.addMask bottom bottom scope).2 }) := by
  apply runs_bind_ok (runs_onChain hac bottom bottom)
  rw [if_pos (s.heap.hasAncestor_self bottom)]
  exact runs_read (runs_update (.step (pure _) _))

/-- The outcome of building a mask. A failure changes nothing. -/
def State.withMask (s : State) : Except EvalError (EnvId × Heap) → Except EvalError EnvId × State
  | .ok (mask, heap) => (.ok mask, { s with heap })
  | .error err => (.error err, s)

/-- The scope graph has no cycle while a mask for data is built. -/
theorem runs_maskOf (hs : s.Sound) (hc : s.heap.Closed) {scope : EnvId}
    (hscope : scope.index < s.heap.size) (data : Value) :
    Runs mode (Proc.maskOf data scope) s (s.withMask (s.heap.maskOf data scope)) := by
  have hac : ∀ f : Frame, f.parent = some scope → (s.heap.alloc f).2.Acyclic := fun f hf =>
    ((Heap.GrowsTo.refl s.heap).alloc_inside hf hscope).acyclic hc hs.acyclic
  cases data with
  | null =>
    simp only [Heap.maskOf, Heap.maskOver, Option.getD_none, Heap.hasAncestor_self, if_true]
    exact runs_alloc (runs_maskOver (hac _ rfl) _ scope)
  | env e =>
    simp only [Heap.maskOf, Heap.maskWithPronoun, Heap.maskOver_self]
    apply runs_alloc
    apply runs_update
    refine runs_maskOver ?_ _ scope
    exact Heap.acyclic_bind (hac _ rfl) _ _ _
  | list kind entries =>
    have hdata := (Heap.growsTo_addData s.heap entries hscope).1.acyclic hc hs.acyclic
    simp only [Heap.maskOf, Heap.maskWithPronoun, Heap.maskOver_self, Proc.maskOf]
    rcases entries.defect? with _ | defect
    · apply runs_alloc
      apply runs_update
      refine runs_maskOver ?_ _ scope
      exact Heap.acyclic_bind hdata _ _ _
    · exact .step (.fail _) s
  | _ => exact .step (.fail _) s

/-- Two walks are made, one to look whether the top frame is met at all, and one that collects
the frames up to it. -/
theorem runs_clearTo (hac : s.heap.Acyclic) (bottom top : EnvId) :
    Runs mode (Proc.clearTo bottom top) s
      (.ok (), { s with heap := (s.heap.dataFrames bottom top).foldl Heap.clear s.heap }) := by
  apply runs_bind_ok (runs_onChain hac bottom top)
  unfold Heap.dataFrames
  by_cases hon : s.heap.hasAncestor bottom top
  · rw [if_pos hon, if_pos hon]
    exact runs_bind_ok (runs_up hac _ bottom) (.step (.update _) s)
  · rw [if_neg hon, if_neg hon]
    exact .step (pure ()) s

theorem runs_strip (hac : s.heap.Acyclic) (mask : EnvId) :
    Runs mode (Proc.strip mask) s (.ok (), { s with heap := s.heap.stripMask mask }) := by
  have hunbound : (maskNames.foldl (·.unbind mask ·) s.heap).Acyclic :=
    (s.heap.sameLinks_foldl_unbind mask maskNames).acyclic hac
  apply runs_read
  apply runs_read
  apply runs_update
  unfold Heap.stripMask
  generalize maskNames.foldl (·.unbind mask ·) s.heap = h at hunbound ⊢
  rcases s.heap.parent? mask with _ | bottom
  · rcases s.heap.local? mask .topEnv with _ | v
    · exact .step (pure ()) _
    · cases v <;> exact .step (pure ()) _
  · have hclear : ∀ top, Runs mode (Proc.clearTo bottom top) { s with heap := h }
        (.ok (), { s with heap := (h.dataFrames bottom top).foldl Heap.clear h }) := fun top =>
      runs_clearTo hunbound bottom top
    rcases s.heap.local? mask .topEnv with _ | v
    · exact hclear bottom
    · cases v with
      | env top => exact hclear top
      | _ => exact hclear bottom

/-! ## Evaluation against data -/

/-- Pointing a mask walks up from the scope, before anything is rewired. -/
theorem computes_point (mask scope : EnvId) :
    (Proc.point mask scope).Computes mode (pointMask mask scope) := by
  apply Proc.computes_bind (Proc.computes_step _) (putsBack_localEnv mask .topEnv)
  intro top s hs
  apply runs_bind_ok (runs_onChain hs.acyclic scope top)
  simp only [Attempt.bind_run, Attempt.read, Attempt.ofExcept, Heap.reparent, Option.any_some]
  by_cases hon : s.heap.hasAncestor scope top
  · rw [if_pos hon, if_pos hon]
    exact .step (.fail _) s
  · rw [if_neg hon, if_neg hon]
    exact .step (.update _) s

theorem sound_pointed (hs : s.Sound) {top scope : EnvId} (mask : EnvId)
    (hoff : s.heap.hasAncestor scope top = false) :
    ({ s with heap := (s.heap.pointAt mask top scope).sweep s.held } : State).Sound :=
  ⟨Heap.acyclic_sweep (Heap.acyclic_pointAt hs.acyclic hoff mask) _, Heap.settled_sweep _ _⟩

theorem runs_inMask (hs : s.Sound) (e : Expr) (mask scope : EnvId) :
    Runs mode (do Proc.point mask scope; Proc.evaluate e mask) s
      (evalInMask mode e mask scope s) := by
  have hpoint : Runs mode (Proc.point mask scope) s (pointMask mask scope s) :=
    computes_point mask scope s hs
  unfold evalInMask
  rcases pointMask_run mask scope s with ⟨err, hrun⟩ | ⟨top, -, hoff, hrun⟩
  · rw [Attempt.bind_run_error hrun]
    rw [hrun] at hpoint
    exact runs_bind_error hpoint
  · rw [Attempt.bind_run_ok hrun]
    rw [hrun] at hpoint
    apply runs_bind_ok hpoint
    exact Proc.computes_evaluate (e.computed mode mask) _ (sound_pointed hs mask hoff)

/-- The body finds a scope graph without a cycle, and so does what takes the mask down. -/
theorem runs_inOwnMask {build : Proc EnvId} {makes : Heap → Except EvalError (EnvId × Heap)}
    {takeDown : EnvId → Proc Unit} {strips : Heap → EnvId → Heap} (hs : s.Sound)
    (hc : s.heap.Closed)
    (hgrows : ∀ mask h, makes s.heap = .ok (mask, h) → s.heap.GrowsByMask h mask)
    (hbuild : Runs mode build s (s.withMask (makes s.heap)))
    (htake : ∀ (t : State) mask, t.heap.Acyclic →
      Runs mode (takeDown mask) t (.ok (), { t with heap := strips t.heap mask })) (e : Expr) :
    Runs mode (Proc.inOwnMask build takeDown e) s (inOwnMask makes strips (e.eval mode) s) := by
  apply runs_read
  rcases hb : makes s.heap with err | ⟨mask, heap⟩
  · rw [hb] at hbuild
    rw [inOwnMask_error hb]
    exact runs_bind_error hbuild
  · rw [hb] at hbuild
    have hmask := hgrows mask heap hb
    have hsound : ({ s with heap, held := mask :: s.held } : State).Sound :=
      ⟨hmask.grows.acyclic hc hs.acyclic, hmask.settled hs.settled⟩
    have hbody := e.computed mode mask _ hsound
    have hafter := (e.putsBack_eval mode mask _ hsound.settled).sound hsound
    unfold inOwnMask
    simp only [hb]
    rcases hrun : e.eval mode mask { s with heap, held := mask :: s.held } with ⟨r, t⟩
    rw [hrun] at hbody hafter
    apply runs_bind_ok hbuild
    apply runs_update
    apply Runs.eval hbody
    apply runs_bind_ok (htake t mask hafter.acyclic)
    apply runs_update
    cases r <;> exact .step (.ofExcept _) _

theorem runs_withData (hs : s.Sound) (hc : s.heap.Closed) (code data : Value) {env : EnvId}
    (henv : (code.scopeOr env).index < s.heap.size) :
    Runs mode (Proc.withData code data env) s (evalWithData mode code data env s) := by
  unfold evalWithData
  apply runs_read
  rw [Attempt.bind_run]
  simp only [Attempt.read]
  rcases data.env?.filter s.heap.isMask with _ | mask
  · have hquosure : Runs mode (Proc.inOwnMask (Proc.alloc (·.addQuosureMask (code.scopeOr env)))
        (fun _ => pure ()) code.body) s
        (inOwnMask (fun h => .ok (h.addQuosureMask (code.scopeOr env))) (fun h _ => h)
          (code.body.eval mode) s) := by
      refine runs_inOwnMask hs hc ?_ ?_ (fun t _ _ => .step (pure ()) t) code.body
      · intro mask h hb
        cases hb
        exact Heap.growsByMask_addQuosureMask henv
      · exact runs_read (runs_update (.step (pure _) _))
    have hdata : Runs mode (Proc.inOwnMask (Proc.maskOf data (code.scopeOr env)) Proc.strip
        code.body) s
        (inOwnMask (·.maskOf data (code.scopeOr env)) Heap.stripMask (code.body.eval mode) s) := by
      refine runs_inOwnMask hs hc ?_ (runs_maskOf hs hc henv data) ?_ code.body
      · exact fun mask h hb => Heap.growsByMask_maskOf henv hb
      · exact fun t mask hac => runs_strip hac mask
    cases data with
    | null => exact hquosure
    | _ => exact hdata
  · exact runs_inMask hs code.body mask (code.scopeOr env)

/-! ## Termination -/

/-- From the state the procedures return, each with one outcome, the one that the evaluator
gives. A run has a finite number of steps, and its walks are all over chains without a cycle. -/
structure State.Returns (mode : Mode) (s : State) : Prop where
  eval : ∀ e env out, Runs mode (.evaluate e env) s out ↔ out = e.eval mode env s
  tilde : ∀ (v : Value) overscope top out,
    Runs mode (v.tildeProc overscope top) s out ↔ out = v.evalTilde mode overscope top s
  formula : ∀ (v : Value) env out,
    Runs mode (v.formulaProc env) s out ↔ out = v.toFormula mode env s
  withData : ∀ (code data : Value) env, (code.scopeOr env).index < s.heap.size → ∀ out,
    Runs mode (.withData code data env) s out ↔ out = evalWithData mode code data env s

/-- What the procedures evaluate in turn, whatever their steps and walks give: an operand, or
once the operands again, which start none but the operands. -/
structure Mode.Descends (mode : Mode) : Prop where
  eval : ∀ (e : Expr) env, (e.proc mode env).Calls e.Starts
  tilde : ∀ (v : Value) overscope top, (v.tildeProc overscope top).Calls fun e =>
    e ∈ v.toExpr.args.toList ∨ v.toExpr.Again e
  formula : ∀ (v : Value) env, (v.formulaProc env).Calls v.toExpr.Again
  withData : ∀ (code data : Value) env, (Proc.withData code data env).Calls (· = code.body)
  once : ∀ e e' e'' : Expr, e.Again e' → e'.Starts e'' → e'' ∈ e.args.toList
  wellFounded : WellFounded fun e' e : Expr => e.Starts e'

theorem runs_iff {α : Type} {p : Proc α} {x : EvalM α} (h : Runs mode p s (x s))
    (out : Except EvalError α × State) : Runs mode p s out ↔ out = x s := by
  constructor
  · intro hout
    exact hout.unique h
  · rintro rfl
    exact h

theorem Mode.descends (mode : Mode) : mode.Descends where
  eval := Expr.calls_proc mode
  tilde := Value.calls_tildeProc
  formula := Value.calls_formulaProc
  withData := Proc.calls_withData
  once := by
    rintro e e' e'' ⟨p, rfl⟩ hstarts
    cases hstarts with
    | operand he => exact he
    | again hhead => cases hhead
  wellFounded := Expr.wellFounded_starts

/-- Every evaluation ends on a scope graph whose parent links form no cycle, whatever its
bindings hold, at any limit of depth. It descends into operands alone, and no walk is made
where there is a cycle, not even while a top frame is spliced. -/
theorem evaluation_returns (mode : Mode) {s : State} (hs : s.Sound) (hc : s.heap.Closed) :
    s.Returns mode ∧ mode.Descends := by
  refine ⟨?_, mode.descends⟩
  constructor
  · intro e env
    exact runs_iff (Proc.computes_evaluate (e.computed mode env) s hs)
  · intro v overscope top
    exact runs_iff (v.computes_tildeProc mode overscope top s hs)
  · intro v env
    exact runs_iff (v.computes_formulaProc mode env s hs)
  · intro code data env henv
    exact runs_iff (runs_withData hs hc code data henv)

/-- The quosure of the global frame over `x`. -/
def Formula.sampleKnot : Formula := .quosure (.symbol ⟨12⟩) (some .global)

/-- The global frame binds `x` to the quosure over `x` itself, and `y` to the frame. So both
hold the frame that holds them. -/
def State.sampleKnot : State :=
  { State.initial with
    heap := (Heap.initial.bind .global ⟨12⟩ Formula.sampleKnot.toValue).bind .global ⟨13⟩
      (.env .global) }

/-- The quosure evaluates to itself, since what `x` means is not evaluated. -/
theorem evaluation_returns_sample :
    State.sampleKnot.Sound ∧ State.sampleKnot.heap.Closed ∧
      ∃ t, Runs .unlimited (.withData Formula.sampleKnot.toValue .null .base) .sampleKnot
        (.ok Formula.sampleKnot.toValue, t) := by
  have hs : State.sampleKnot.Sound := ⟨by decide +kernel, by decide +kernel⟩
  have hc : State.sampleKnot.heap.Closed := by decide +kernel
  have hvalue : (evalWithData .unlimited Formula.sampleKnot.toValue .null .base .sampleKnot).1 =
      .ok Formula.sampleKnot.toValue := rfl
  have hrun := ((evaluation_returns .unlimited hs hc).1.withData Formula.sampleKnot.toValue .null
    .base (by decide +kernel) _).2 rfl
  rcases hout : evalWithData .unlimited Formula.sampleKnot.toValue .null .base .sampleKnot
    with ⟨r, t⟩
  rw [hout] at hvalue hrun
  cases hvalue
  exact ⟨hs, hc, t, hrun⟩

end Overscope
