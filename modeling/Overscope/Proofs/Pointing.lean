-- Evaluation in a mask that the caller keeps is all or nothing on the mask. Either the mask
-- is not pointed, and then nothing is evaluated and nothing is another one, or two slots are,
-- the parent of its top frame and its own `.env`. Whatever is evaluated after that, and
-- however it ends, both slots stay as they were written.
import Overscope.Proofs.MaskReuse
import Overscope.Proofs.Trace

open Relation

namespace Overscope

namespace Heap

/-! ## The two slots -/

/-- `t` is `h` with a mask pointed at a scope, less some frames that died. -/
structure OnlyPointed (h : Heap) (mask top scope : EnvId) (t : Heap) : Prop where
  size : t.size = h.size
  isLive : ∀ e, t.isLive e → h.isLive e
  parent? : ∀ e, t.isLive e → t.parent? e = if e = top then some scope else h.parent? e
  local? : ∀ e name, t.isLive e →
    t.local? e name = if e = mask ∧ name = .env then some (.env scope) else h.local? e name

theorem isLive_of_pointAt_sweep {h : Heap} {mask top scope : EnvId} {held : List EnvId} {e : EnvId}
    (hl : ((h.pointAt mask top scope).sweep held).isLive e) : h.isLive e := by
  rw [← isLive_pointAt h mask top scope]
  exact isLive_of_sweep hl

theorem onlyPointed_sweep (h : Heap) (mask top scope : EnvId) (held : List EnvId) :
    h.OnlyPointed mask top scope ((h.pointAt mask top scope).sweep held) where
  size := by rw [size_sweep, size_pointAt]
  isLive e hl := isLive_of_pointAt_sweep hl
  parent? e hl := by
    rw [parent?_congr (frame?_sweep_of_isLive hl), parent?_pointAt,
      if_pos (isLive_of_pointAt_sweep hl)]
    simp only [eq_comm]
  local? e name hl := by
    rw [local?_congr (frame?_sweep_of_isLive hl), local?_pointAt]
    simp only [isLive_of_pointAt_sweep hl, true_and, eq_comm]

/-- The top frame of a mask that is held lives on. -/
theorem isLive_top_sweep {h : Heap} {mask top : EnvId} (htop : h.local? mask .topEnv = some (.env top))
    {held : List EnvId} (hheld : mask ∈ held) (hl : h.isLive top) (scope : EnvId) :
    ((h.pointAt mask top scope).sweep held).isLive top := by
  have hmask : h.isLive mask := isLive_of_local? htop
  have hmask' : ((h.pointAt mask top scope).sweep held).isLive mask :=
    isLive_sweep_of_mem hheld (by rw [isLive_pointAt]; exact hmask)
  have htop' : (h.pointAt mask top scope).local? mask .topEnv = some (.env top) := by
    rw [local?_pointAt, if_neg fun hc => absurd hc.2.2 (by decide), htop]
  rw [isLive, frame?_sweep_of_local? htop' (List.mem_singleton_self top) hmask', ← isLive,
    isLive_pointAt]
  exact hl

end Heap

/-! ## Calls on a mask -/

/-- Pointing the mask is all that a call does to the scope graph, since what an evaluation swaps
it puts back. -/
theorem heap_evalWithData_of_isMask (mode : Mode) (code : Value) (env : EnvId) {s : State}
    {mask top : EnvId} (hm : s.heap.isMask mask)
    (htop : s.heap.local? mask .topEnv = some (.env top)) :
    (evalWithData mode code (.env mask) env s).2.heap =
      if s.heap.hasAncestor (code.scopeOr env) top then s.heap
      else (s.heap.pointAt mask top (code.scopeOr env)).sweep s.held := by
  have hpoint := pointMask_of_env htop (code.scopeOr env)
  rw [evalWithData_of_isMask mode code env hm, evalInMask]
  by_cases hcyc : s.heap.hasAncestor (code.scopeOr env) top
  · rw [if_pos hcyc] at hpoint
    rw [Attempt.bind_run_error hpoint, if_pos hcyc]
  · rw [if_neg hcyc] at hpoint
    rw [Attempt.bind_run_ok hpoint, if_neg hcyc]
    -- The sweep leaves a holder for every frame, so the evaluation gives back what it found.
    exact (code.body.putsBack_eval mode mask (s.pointed mask top (code.scopeOr env)).sweep
      (Heap.settled_sweep _ _)).heap

section
variable (mode : Mode) (code : Value) (mask env : EnvId) (s : State)

/-- The call fails with the error, evaluates nothing, and changes nothing. -/
structure Refuses (err : EvalError) : Prop where
  run : evalWithData mode code (.env mask) env s = (.error err, s)
  visits : (traceWithData mode code (.env mask) env).visits s = []

/-- The call evaluates the code once the mask is pointed. Afterwards both slots of the mask
are as they were written then, and no other slot of a frame that lives on is another one. -/
structure Accepts (top : EnvId) : Prop where
  run : evalWithData mode code (.env mask) env s =
    code.body.eval mode mask (s.pointed mask top (code.scopeOr env)).sweep
  heap : s.heap.OnlyPointed mask top (code.scopeOr env)
    (evalWithData mode code (.env mask) env s).2.heap
  held : ∀ e ∈ s.held, s.heap.isLive e → (evalWithData mode code (.env mask) env s).2.heap.isLive e
  top : s.heap.isLive top → (evalWithData mode code (.env mask) env s).2.heap.isLive top

end

section
variable {mode : Mode} {code : Value} {mask env : EnvId} {s : State}

/-- A mask that is not pointed lets nothing be evaluated. -/
theorem refuses_of_pointMask (hm : s.heap.isMask mask) {err : EvalError}
    (hrun : pointMask mask (code.scopeOr env) s = (.error err, s)) :
    Refuses mode code mask env s err where
  run := by
    rw [evalWithData_of_isMask mode code env hm, evalInMask, Attempt.bind_run_error hrun]
  visits := by
    have hsome : (Value.env mask).env?.filter s.heap.isMask = some mask := by
      rw [Value.env?, Option.filter_some, hm]
      rfl
    rw [visits_traceWithData_of_some hsome, Traced.visits_silent_bind_error hrun]

/-- A mask that is pointed stays so. -/
theorem accepts_of_pointMask (hm : s.heap.isMask mask) (hheld : mask ∈ s.held) {top : EnvId}
    (htop : s.heap.local? mask .topEnv = some (.env top))
    (hoff : ¬ s.heap.hasAncestor (code.scopeOr env) top) :
    Accepts mode code mask env s top := by
  have hpoint : pointMask mask (code.scopeOr env) s =
      (.ok (), (s.pointed mask top (code.scopeOr env)).sweep) := by
    rw [pointMask_of_env htop, if_neg hoff]
    rfl
  have hrun : evalWithData mode code (.env mask) env s =
      code.body.eval mode mask (s.pointed mask top (code.scopeOr env)).sweep := by
    rw [evalWithData_of_isMask mode code env hm, evalInMask, Attempt.bind_run_ok hpoint]
  have hback := heap_evalWithData_of_isMask mode code env hm htop
  rw [if_neg hoff] at hback
  refine ⟨hrun, ?_, fun e he hl => ?_, fun hl => ?_⟩
  · rw [hback]
    exact Heap.onlyPointed_sweep ..
  · rw [hback]
    exact Heap.isLive_sweep_of_mem he (by rw [Heap.isLive_pointAt]; exact hl)
  · rw [hback]
    exact Heap.isLive_top_sweep htop hheld hl _

end

/-- A call on a mask that the caller holds, with any code and any environment. Without a top
frame on record, or with one that is the scope of the call or an ancestor of it, the call is
refused as a whole. Otherwise the mask is pointed at the scope, and is left so whether the
evaluation succeeds or fails. -/
theorem evalWithData_allOrNothing (mode : Mode) {s : State} (hac : s.heap.Acyclic) {mask : EnvId}
    (hm : s.heap.isMask mask) (hheld : mask ∈ s.held) (code : Value) (env : EnvId) :
    (s.heap.local? mask .topEnv = none →
      Refuses mode code mask env s (.undefinedVariable (s.interner.text .topEnv))) ∧
    (∀ v, s.heap.local? mask .topEnv = some v → v.env? = none →
      Refuses mode code mask env s (.typeMismatch "environment" v.typeName)) ∧
    ∀ top, s.heap.local? mask .topEnv = some (.env top) →
      (ReflTransGen s.heap.Link (code.scopeOr env) top →
        Refuses mode code mask env s .cyclicScope) ∧
      (¬ ReflTransGen s.heap.Link (code.scopeOr env) top → Accepts mode code mask env s top) := by
  refine ⟨fun htop => ?_, fun v htop hv => ?_, fun top htop => ⟨fun hcyc => ?_, fun hoff => ?_⟩⟩
  · exact refuses_of_pointMask hm (pointMask_of_none htop _)
  · exact refuses_of_pointMask hm (pointMask_of_not_env htop hv _)
  · rw [← Heap.hasAncestor_iff_reflTransGen hac] at hcyc
    have hrun := pointMask_of_env htop (code.scopeOr env)
    rw [if_pos hcyc] at hrun
    exact refuses_of_pointMask hm hrun
  · rw [← Heap.hasAncestor_iff_reflTransGen hac] at hoff
    exact accepts_of_pointMask hm hheld htop hoff

/-- The sample mask takes no call in its frame of data. One in the base frame fails, since
`x` is no function, and leaves the mask in that frame all the same. -/
theorem evalWithData_allOrNothing_sample :
    State.sampleMask.heap.Acyclic ∧ State.sampleMask.heap.isMask ⟨3⟩ ∧
      (⟨3⟩ : EnvId) ∈ State.sampleMask.held ∧
      Refuses .unlimited (.code (.symbol ⟨12⟩)) ⟨3⟩ ⟨2⟩ .sampleMask .cyclicScope ∧
      Accepts .unlimited (.code (.call (.symbol ⟨12⟩) .nil)) ⟨3⟩ .base .sampleMask ⟨2⟩ ∧
      State.sampleMask.heap.isLive ⟨2⟩ ∧
      (evalWithData .unlimited (.code (.call (.symbol ⟨12⟩) .nil)) (.env ⟨3⟩) .base
        .sampleMask).1.isOk = false := by
  have hac : State.sampleMask.heap.Acyclic := by decide +kernel
  have hm : State.sampleMask.heap.isMask ⟨3⟩ := by decide +kernel
  have hheld : (⟨3⟩ : EnvId) ∈ State.sampleMask.held := by decide
  have htop : State.sampleMask.heap.local? ⟨3⟩ .topEnv = some (.env ⟨2⟩) := rfl
  refine ⟨hac, hm, hheld, ?_, ?_, by decide +kernel, by decide +kernel⟩
  · refine ((evalWithData_allOrNothing .unlimited hac hm hheld _ ⟨2⟩).2.2 ⟨2⟩ htop).1 ?_
    exact .refl
  · refine ((evalWithData_allOrNothing .unlimited hac hm hheld _ .base).2.2 ⟨2⟩ htop).2 ?_
    rw [← Heap.hasAncestor_iff_reflTransGen hac]
    decide +kernel

end Overscope
