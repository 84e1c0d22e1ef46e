-- Rewiring a scope chain. A guard remembers what one slot held, so that the slot
-- can be put back when the guard is released.
import Overscope.EvalError
import Overscope.Scope.Chain

namespace Overscope

/-- What one slot held before it was changed. -/
inductive Guard where
  /-- The parent link of a frame. -/
  | parent (e : EnvId) (previous : Option EnvId)
  /-- One binding of a frame. -/
  | binding (e : EnvId) (name : Name) (previous : Option Value)

/-- The environments that a guard keeps alive: the frame it restores and what
the slot held. -/
def Guard.handles : Guard → List EnvId
  | .parent e previous => e :: previous.toList
  | .binding e _ previous => e :: (previous.map Value.handles).getD []

namespace Heap

/-- Gives a frame a new parent. A parent that has the frame on its own chain is
refused, because the link would close a cycle. -/
def reparent (h : Heap) (e : EnvId) (parent : Option EnvId) : Except EvalError Heap :=
  if parent.any (h.hasAncestor · e) then .error .cyclicScope
  else .ok (h.setParent e parent)

/-- Gives a frame a new parent, and gives back the old one. -/
def replaceParent (h : Heap) (e : EnvId) (parent : Option EnvId) :
    Except EvalError (Option EnvId × Heap) :=
  (h.reparent e parent).map fun h' => (h.parent? e, h')

/-- Gives a frame a new parent under a guard. -/
def swapParent (h : Heap) (e parent : EnvId) : Except EvalError (Guard × Heap) :=
  (h.reparent e (some parent)).map fun h' => (.parent e (h.parent? e), h')

/-- Binds a name under a guard. -/
def swapBinding (h : Heap) (e : EnvId) (name : Name) (v : Value) : Guard × Heap :=
  (.binding e name (h.local? e name), h.bind e name v)

/-- Puts the slot of a guard back. -/
def release (h : Heap) : Guard → Heap
  | .parent e previous => h.setParent e previous
  | .binding e name previous => h.restoreBinding e name previous

/-- A new parent is refused exactly when the frame is on the chain of the new
parent. -/
theorem reparent_eq_error_iff {h : Heap} {e : EnvId} {parent : Option EnvId} {err : EvalError} :
    h.reparent e parent = .error err ↔
      err = .cyclicScope ∧ parent.any (h.hasAncestor · e) = true := by
  unfold reparent
  split
  · next hp => simp only [hp, and_true, Except.error.injEq]; exact eq_comm
  · next hp => simp [hp]

theorem reparent_eq_ok_iff {h h' : Heap} {e : EnvId} {parent : Option EnvId} :
    h.reparent e parent = .ok h' ↔
      parent.any (h.hasAncestor · e) = false ∧ h' = h.setParent e parent := by
  unfold reparent
  split
  · next hp => simp [hp]
  · next hp =>
    simp only [Bool.not_eq_true] at hp
    simp only [hp, true_and, Except.ok.injEq]
    exact eq_comm

end Heap

end Overscope
