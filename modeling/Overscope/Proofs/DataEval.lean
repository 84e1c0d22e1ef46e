-- Evaluation against data and the scope graph. A mask that the caller keeps stays
-- where it was pointed, and one that was built for the evaluation is let go of. No
-- link closes a cycle on the way, and what is held from outside lives on.
import Overscope.Proofs.Growth
import Overscope.Proofs.Restoration

namespace Overscope

/-! ## What a step may do to the scope graph -/

/-- From the first state to the second no cycle was closed, every parent was made,
no frame was forgotten, and what is held from outside lives on. -/
structure State.LeadsTo (s s' : State) : Prop where
  acyclic : s'.heap.Acyclic
  closed : s'.heap.Closed
  size_le : s.heap.size ≤ s'.heap.size
  isLive : ∀ e ∈ s.held, s.heap.isLive e → s'.heap.isLive e

/-- The second state has the scope graph of the first one. -/
theorem State.leadsTo_of_heap_eq {s s' : State} (hac : s.heap.Acyclic) (hc : s.heap.Closed)
    (heq : s'.heap = s.heap) : s.LeadsTo s' := by
  refine ⟨?_, ?_, ?_, ?_⟩
  · rw [heq]; exact hac
  · rw [heq]; exact hc
  · rw [heq]
  · intro e _ hl
    rw [heq]
    exact hl

/-- What has the same links may be swept. -/
theorem State.leadsTo_sweep {s s' : State} {h : Heap} (hac : h.Acyclic) (hc : h.Closed)
    (hsize : s.heap.size ≤ h.size) (hl : ∀ e ∈ s.held, s.heap.isLive e → h.isLive e)
    {held : List EnvId} (hheld : ∀ e ∈ s.held, e ∈ held) (heq : s'.heap = h.sweep held) :
    s.LeadsTo s' := by
  refine ⟨?_, ?_, ?_, ?_⟩
  · rw [heq]; exact Heap.acyclic_sweep hac held
  · rw [heq]; exact Heap.closed_sweep hc held
  · rw [heq, Heap.size_sweep]
    exact hsize
  · intro e he hlive
    rw [heq]
    exact Heap.isLive_sweep_of_mem (hheld e he) (hl e he hlive)

/-! ## A mask that the caller keeps -/

namespace Heap

/-- The scope graph with a mask pointed at an environment. -/
def pointAt (h : Heap) (mask top env : EnvId) : Heap :=
  (h.setParent top (some env)).bind mask .env (.env env)

theorem size_pointAt (h : Heap) (mask top env : EnvId) : (h.pointAt mask top env).size = h.size := by
  rw [pointAt, bind, size_modify, setParent, size_modify]

theorem isLive_pointAt (h : Heap) (mask top env e : EnvId) :
    (h.pointAt mask top env).isLive e = h.isLive e := by
  rw [pointAt, bind, isLive_modify, setParent, isLive_modify]

theorem acyclic_pointAt {h : Heap} (hac : h.Acyclic) {top env : EnvId}
    (hoff : h.hasAncestor env top = false) (mask : EnvId) : (h.pointAt mask top env).Acyclic :=
  acyclic_bind (acyclic_setParent hac (Bool.eq_false_iff.1 hoff)) mask .env (.env env)

theorem closed_pointAt {h : Heap} (hc : h.Closed) {env : EnvId} (henv : env.index < h.size)
    (mask top : EnvId) : (h.pointAt mask top env).Closed := by
  refine (sameLinks_bind _ mask .env (.env env)).closed (closed_setParent hc top fun q hq => ?_)
  cases hq
  exact henv

/-- Wherever a mask is pointed, every live frame has a holder, if what its two slots held is
held. -/
theorem settled_pointAt {h : Heap} {held : List EnvId} (hs : h.Settled held) {mask top : EnvId}
    (hparent : ∀ p ∈ h.parent? top, p ∈ held)
    (henv : ∀ v ∈ h.local? mask .env, ∀ x ∈ v.handles, x ∈ held) (env : EnvId) :
    (h.pointAt mask top env).Settled held := by
  have hlink : (h.setParent top (some env)).Settled held :=
    settled_setParent_of_held hs (fun _ hx => hx) hparent _
  refine settled_bind_of_held hlink (fun _ hx => hx) (fun v hv => ?_) _
  rw [local?_setParent] at hv
  exact henv v hv

end Heap

section
variable {mask : EnvId} {s : State}

/-- A mask without a top frame on record is not pointed anywhere. -/
theorem pointMask_of_none (htop : s.heap.local? mask .topEnv = none) (env : EnvId) :
    pointMask mask env s = (.error (.undefinedVariable (s.interner.text .topEnv)), s) := by
  simp only [pointMask, localEnv, Attempt.bind_run, Attempt.read, htop]
  rfl

theorem pointMask_of_not_env {v : Value} (htop : s.heap.local? mask .topEnv = some v)
    (hv : v.env? = none) (env : EnvId) :
    pointMask mask env s = (.error (.typeMismatch "environment" v.typeName), s) := by
  simp only [pointMask, localEnv, Attempt.bind_run, Attempt.read, htop]
  cases v with
  | env e => cases hv
  | _ => rfl

/-- A mask is pointed at a scope, unless the scope is inside of its top frame. -/
theorem pointMask_of_env {top : EnvId} (htop : s.heap.local? mask .topEnv = some (.env top))
    (env : EnvId) :
    pointMask mask env s =
      if s.heap.hasAncestor env top then (.error .cyclicScope, s)
      else (.ok (), { s with heap := (s.heap.pointAt mask top env).sweep s.held }) := by
  simp only [pointMask, localEnv, Attempt.bind_run, Attempt.read, htop, Attempt.pure_run,
    Heap.reparent, Option.any_some]
  by_cases ha : s.heap.hasAncestor env top
  · simp only [ha, if_true]
    rfl
  · simp only [ha]
    rfl

end

/-- Pointing a mask fails without a change, or rewires its top frame and `.env`. -/
theorem pointMask_run (mask env : EnvId) (s : State) :
    (∃ err, pointMask mask env s = (.error err, s)) ∨
      ∃ top, s.heap.local? mask .topEnv = some (.env top) ∧
        s.heap.hasAncestor env top = false ∧
        pointMask mask env s =
          (.ok (), { s with heap := (s.heap.pointAt mask top env).sweep s.held }) := by
  rcases htop : s.heap.local? mask .topEnv with _ | v
  · exact Or.inl ⟨_, pointMask_of_none htop env⟩
  · cases v with
    | env top =>
      have hrun := pointMask_of_env htop env
      by_cases ha : s.heap.hasAncestor env top
      · rw [if_pos ha] at hrun
        exact Or.inl ⟨_, hrun⟩
      · rw [if_neg ha] at hrun
        exact Or.inr ⟨top, rfl, Bool.eq_false_iff.2 ha, hrun⟩
    | _ => exact Or.inl ⟨_, pointMask_of_not_env htop rfl env⟩

theorem leadsTo_evalInMask (mode : Mode) (e : Expr) (mask : EnvId) {env : EnvId} {s : State}
    (hs : s.Sound) (hc : s.heap.Closed) (henv : env.index < s.heap.size) :
    s.LeadsTo (evalInMask mode e mask env s).2 := by
  unfold evalInMask
  rcases pointMask_run mask env s with ⟨err, hrun⟩ | ⟨top, -, hoff, hrun⟩
  · rw [Attempt.bind_run_error hrun]
    exact State.leadsTo_of_heap_eq hs.acyclic hc rfl
  · rw [Attempt.bind_run_ok hrun]
    have hac := Heap.acyclic_pointAt hs.acyclic hoff mask
    have hsound : ({ s with heap := (s.heap.pointAt mask top env).sweep s.held } : State).Sound :=
      ⟨Heap.acyclic_sweep hac _, Heap.settled_sweep _ _⟩
    refine State.leadsTo_sweep hac (Heap.closed_pointAt hc henv mask top) ?_ ?_ (fun _ he => he)
      (e.onlyLearned_eval hsound mode mask).heap
    · rw [Heap.size_pointAt]
    · intro f _ hl
      rw [Heap.isLive_pointAt]
      exact hl

/-! ## A mask of its own -/

/-- Evaluation in a mask that is built for it, and taken down without a change of
links. -/
theorem leadsTo_inOwnMask (mode : Mode) (e : Expr)
    {build : Heap → Except EvalError (EnvId × Heap)} {takeDown : Heap → EnvId → Heap} {s : State}
    (hs : s.Sound) (hc : s.heap.Closed)
    (hbuild : ∀ mask h, build s.heap = .ok (mask, h) → s.heap.GrowsByMask h mask)
    (htake : ∀ (h : Heap) mask, h.SameLinks (takeDown h mask)) :
    s.LeadsTo (inOwnMask build takeDown (e.eval mode) s).2 := by
  unfold inOwnMask
  rcases hb : build s.heap with err | ⟨mask, h⟩
  · exact State.leadsTo_of_heap_eq hs.acyclic hc rfl
  · -- The evaluation holds the mask, and the mask its bottom frame, until the end.
    have hm := hbuild mask h hb
    have hac := hm.grows.acyclic hc hs.acyclic
    have hsound : ({ s with heap := h, held := mask :: s.held } : State).Sound :=
      ⟨hac, hm.settled hs.settled⟩
    have hkept := e.onlyLearned_eval hsound mode mask
    have hsame := htake h mask
    rcases hrun : e.eval mode mask { s with heap := h, held := mask :: s.held } with ⟨r, s'⟩
    rw [hrun] at hkept
    have hheap : s'.heap = h := hkept.heap
    simp only [hrun, hheap]
    refine State.leadsTo_sweep (hsame.acyclic hac) (hsame.closed (hm.grows.closed hc)) ?_ ?_
      (fun e he => List.mem_append_right _ he) rfl
    · rw [hsame.size]
      exact hm.grows.size_le
    · intro f _ hl
      rw [hsame.isLive]
      exact hm.grows.isLive hl

/-- A value is evaluated in an environment that was given or that it holds. -/
theorem Value.scopeOr_mem (code : Value) (env : EnvId) :
    code.scopeOr env ∈ env :: code.handles := by
  unfold scopeOr quosure?
  rcases hf : code.formula?.filter Formula.isQuosure with _ | f
  · exact List.mem_cons_self ..
  · rcases he : f.env with _ | e
    · simp [he]
    · have hcode := formula?_eq_some_iff.1 (Option.eq_some_of_filter_eq_some hf)
      simp only [Option.bind_some, he, Option.getD_some]
      rw [hcode]
      exact List.mem_cons_of_mem env (f.mem_handles_iff.2 (Or.inl he))

/-- Evaluation against any data. -/
theorem leadsTo_evalWithData (mode : Mode) (code data : Value) (env : EnvId) {s : State}
    (hs : s.Sound) (hc : s.heap.Closed) (henv : (code.scopeOr env).index < s.heap.size) :
    s.LeadsTo (evalWithData mode code data env s).2 := by
  unfold evalWithData
  rw [Attempt.bind_run]
  simp only [Attempt.read]
  rcases data.env?.filter s.heap.isMask with _ | mask
  · have hquosure : s.LeadsTo (inOwnMask (fun h => .ok (h.addQuosureMask (code.scopeOr env)))
        (fun h _ => h) (code.body.eval mode) s).2 := by
      refine leadsTo_inOwnMask mode code.body hs hc (fun mask h hb => ?_) fun h _ => .refl h
      obtain ⟨rfl, rfl⟩ := Prod.mk.inj (Except.ok.inj hb)
      exact Heap.growsByMask_addQuosureMask henv
    have hdata : s.LeadsTo (inOwnMask (·.maskOf data (code.scopeOr env)) Heap.stripMask
        (code.body.eval mode) s).2 :=
      leadsTo_inOwnMask mode code.body hs hc (fun mask h hb => Heap.growsByMask_maskOf henv hb)
        Heap.sameLinks_stripMask
    unfold evalInOwnMask
    split
    · exact hquosure
    · exact hdata
  · exact leadsTo_evalInMask mode code.body mask hs hc henv

end Overscope
