-- The two ways to evaluate a quosure in a data mask. One points the mask at the scope of the
-- quosure and leaves it so. The other splices the scope in, for as long as the evaluation
-- takes. A mask that was pointed looks as it does under the splice, so where nothing dies of
-- the pointing, the right-hand side meets one view, one memory and one depth on both ways.
import Overscope.Proofs.Splicing
import Overscope.Proofs.Tracking

namespace Overscope

/-! ## A mask that was pointed looks spliced -/

theorem Heap.view_pointAt {h : Heap} {mask : EnvId} (hm : h.isMask mask) (top scope : EnvId) :
    (h.pointAt mask top scope).view = h.view.splice mask top scope := by
  rw [← setParent_bind, view_setParent, view_bind, View.splice, isMask_view, if_pos hm]

/-- What the caller of a mask keeps alive: all that the two slots of the mask hold. -/
structure State.KeepsScope (s : State) (mask top : EnvId) : Prop where
  parent : ∀ p ∈ s.heap.parent? top, p ∈ s.held
  env : ∀ v ∈ s.heap.local? mask .env, ∀ x ∈ v.handles, x ∈ s.held

section
variable {s : State} {mask top : EnvId}

theorem State.KeepsScope.settled_pointed (hk : s.KeepsScope mask top) (hs : s.heap.Settled s.held)
    (scope : EnvId) : (s.heap.pointAt mask top scope).Settled s.held :=
  Heap.settled_pointAt hs hk.parent hk.env scope

/-! ## The two ways -/

/-- Code that is evaluated in a mask is evaluated under the splice of its scope. -/
theorem evalInMask_eq_splice (mode : Mode) (hs : s.Sound) (hm : s.heap.isMask mask)
    (htop : s.heap.local? mask .topEnv = some (.env top)) (hk : s.KeepsScope mask top) (e : Expr)
    {scope : EnvId} (hoff : ¬ s.heap.hasAncestor scope top) :
    evalInMask mode e mask scope s =
      (s.pointed mask top scope).onMemo
        (e.evalIn (s.heap.view.splice mask top scope) (mode.allowance s.depth) mask) := by
  -- Nothing dies of the pointing, so the evaluation starts from the graph as it was written.
  have hset := hk.settled_pointed hs.settled scope
  have hpoint : pointMask mask scope s = (.ok (), s.pointed mask top scope) := by
    rw [pointMask_of_env htop, if_neg hoff, Heap.sweep_of_settled hset]
    rfl
  have hsound : (s.pointed mask top scope).Sound :=
    ⟨Heap.acyclic_pointAt hs.acyclic (Bool.eq_false_iff.2 hoff) mask, hset⟩
  rw [evalInMask, Attempt.bind_run_ok hpoint, Expr.eval_eq_onMemo hsound,
    show (s.pointed mask top scope).heap = s.heap.pointAt mask top scope from rfl,
    Heap.view_pointAt hm]
  rfl

theorem evalInMask_of_cyclic (mode : Mode) (htop : s.heap.local? mask .topEnv = some (.env top))
    (e : Expr) {scope : EnvId} (hcyc : s.heap.hasAncestor scope top) :
    evalInMask mode e mask scope s = (.error .cyclicScope, s) := by
  have hpoint := pointMask_of_env htop scope
  rw [if_pos hcyc] at hpoint
  rw [evalInMask, Attempt.bind_run_error hpoint]

end

theorem Formula.quosure?_toValue {q : Formula} (hq : q.isQuosure) : q.toValue.quosure? = some q := by
  rw [Value.quosure?, show q.toValue.formula? = some q from rfl, Option.filter_some, hq]
  rfl

/-- A quosure over symbolic code, with a scope of its own or evaluated in the scope where the
mask goes on: against the mask it gives the value or the error that its override of `~`
gives, in any mode, and the same is learned. It does not matter that the one way checks the
scope, then writes the parent link, then `.env`, and the other one checks the top frame, then
writes `.env`, then checks the scope, then writes the parent link. -/
theorem evalWithData_eq_evalTilde (mode : Mode) {s : State} (hs : s.Sound) {mask top : EnvId}
    (hm : s.heap.isMask mask) (htop : s.heap.local? mask .topEnv = some (.env top))
    (hchain : s.heap.hasAncestor mask top) (hk : s.KeepsScope mask top) {q : Formula}
    (hq : q.isQuosure) {rhs : Expr} (hrhs : q.rhs? = some rhs) (hsym : rhs.isSymbolic) {env : EnvId}
    (hown : q.env = none → s.heap.local? mask .env = some (.env env)) :
    (evalWithData mode q.toValue (.env mask) env s).1 = (q.toValue.evalTilde mode mask top s).1 ∧
      (evalWithData mode q.toValue (.env mask) env s).2.memo =
        (q.toValue.evalTilde mode mask top s).2.memo := by
  have hscope : q.toValue.scopeOr env = q.env.getD env := by
    rw [Value.scopeOr, q.quosure?_toValue hq]
    rfl
  have hbody : q.toValue.body = rhs := by
    rw [Value.body, q.quosure?_toValue hq]
    exact congrArg (Option.getD · .missing) hrhs
  have htarget : targetIn s.heap.view q.env mask = pure (q.env.getD env) := by
    rcases hq' : q.env with _ | e
    · have hlocal : s.heap.view.local? mask .env = some (.env env) := hown hq'
      rw [targetIn, hlocal]
      rfl
    · rfl
  have hspliced : q.toValue.evalTilde mode mask top s =
      s.onMemo (if s.heap.hasAncestor (q.env.getD env) top then .fail .cyclicScope
        else rhs.evalIn (s.heap.view.splice mask top (q.env.getD env)) (mode.allowance s.depth)
          mask) := by
    rw [Value.evalTilde_eq_onMemo hs, Formula.evalTildeIn_of_rhs hq hrhs hsym, htarget, pure_bind,
      Heap.hasAncestor_view hs.acyclic, Heap.hasAncestor_view hs.acyclic, hchain]
    rfl
  rw [evalWithData_of_isMask mode _ env hm, hscope, hbody, hspliced]
  by_cases hcyc : s.heap.hasAncestor (q.env.getD env) top
  · rw [evalInMask_of_cyclic mode htop rhs hcyc, if_pos hcyc]
    exact ⟨rfl, rfl⟩
  · rw [evalInMask_eq_splice mode hs hm htop hk rhs hcyc, if_neg hcyc]
    exact ⟨rfl, rfl⟩

/-! ### A quosure with a scope and one without -/

/-- The sample state, of which the caller holds the frame ⟨2⟩ too, where the mask goes on. -/
def State.sampleKept : State := { State.sample with held := [.base, .global, ⟨2⟩, ⟨4⟩] }

/-- The sum of `x` and `y` in the global environment, where `x = 2`, and where the mask goes
on, where `x = 30`. -/
theorem evalWithData_eq_evalTilde_sample :
    let sum := Expr.call (.inlined (.arithmetic .add)) (.ofList [.symbol ⟨12⟩, .symbol ⟨13⟩])
    let s := State.sampleKept
    s.Sound ∧ s.KeepsScope ⟨4⟩ ⟨3⟩ ∧
      (evalWithData .unlimited (Formula.quosure sum (some .global)).toValue (.env ⟨4⟩) .base s).1 =
        ((Formula.quosure sum (some .global)).toValue.evalTilde .unlimited ⟨4⟩ ⟨3⟩ s).1 ∧
      (evalWithData (.restricted 1) (Formula.quosure sum none).toValue (.env ⟨4⟩) ⟨2⟩ s).1 =
        ((Formula.quosure sum none).toValue.evalTilde (.restricted 1) ⟨4⟩ ⟨3⟩ s).1 ∧
      (evalWithData .unlimited (Formula.quosure sum (some .global)).toValue (.env ⟨4⟩) .base
        s).1.toOption.map (· == .int 7) = some true ∧
      (evalWithData (.restricted 1) (Formula.quosure sum none).toValue (.env ⟨4⟩) ⟨2⟩
        s).1.toOption.map (· == .int 35) = some true := by
  intro sum s
  have hs : s.Sound := ⟨by decide, by decide⟩
  have hm : s.heap.isMask ⟨4⟩ := by decide
  have htop : s.heap.local? ⟨4⟩ .topEnv = some (.env ⟨3⟩) := rfl
  have hchain : s.heap.hasAncestor ⟨4⟩ ⟨3⟩ := by decide
  have henv : s.heap.local? ⟨4⟩ .env = some (.env ⟨2⟩) := rfl
  have hk : s.KeepsScope ⟨4⟩ ⟨3⟩ := by
    refine ⟨by decide, fun v hv x hx => ?_⟩
    rw [henv] at hv
    cases hv
    rw [List.mem_singleton.1 hx]
    decide
  refine ⟨hs, hk, ?_, ?_, by decide +kernel, by decide +kernel⟩
  · exact (evalWithData_eq_evalTilde .unlimited hs hm htop hchain hk rfl rfl rfl
      (fun h => by cases h)).1
  · exact (evalWithData_eq_evalTilde (.restricted 1) hs hm htop hchain hk rfl rfl rfl
      (fun _ => henv)).1

end Overscope
