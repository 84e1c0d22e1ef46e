-- When a step that rewires the scope graph and puts it back does what a step does
-- that only looks at it. Sequencing keeps this, and so does every way of taking hold
-- of the graph: what a guard restores leaves the state as it was, up to what is
-- remembered.
import Overscope.Proofs.ViewEval

namespace Overscope

/-! ## Sound states -/

/-- No frame is its own ancestor, and every live frame has a holder. The first is
what the checks on new parents are for, the second is how frames live. -/
structure State.Sound (s : State) : Prop where
  acyclic : s.heap.Acyclic
  settled : s.heap.Settled s.held

theorem State.sound_initial : State.initial.Sound := ⟨by decide, by decide⟩

/-! ## What is remembered -/

namespace State

def memo (s : State) : Memo := ⟨s.interner, s.tilde⟩

/-- The state with other memories and nothing else changed. -/
def withMemo (s : State) (m : Memo) : State := { s with interner := m.interner, tilde := m.tilde }

/-- Runs on a state what changes the memory alone. -/
def onMemo {α : Type} (s : State) (y : ViewM α) : Except EvalError α × State :=
  ((y s.memo).1, s.withMemo (y s.memo).2)

theorem sound_withMemo {s : State} (hs : s.Sound) (m : Memo) : (s.withMemo m).Sound :=
  ⟨hs.acyclic, hs.settled⟩

theorem onMemo_bind {α β : Type} (s : State) (y : ViewM α) (g : α → ViewM β) :
    s.onMemo (y >>= g) = match s.onMemo y with
      | (.ok a, s') => s'.onMemo (g a)
      | (.error e, s') => (.error e, s') := by
  unfold onMemo
  rw [Attempt.bind_run]
  rcases hy : y s.memo with ⟨_ | a, m⟩
  · rfl
  · rfl

end State

/-! ## The relation -/

variable {α β : Type} {mode : Mode}

/-- From a sound state, `x` does what `y` does on the memory alone when it looks at
the scope graph as it is. -/
def Follows (mode : Mode) (x : EvalM α) (y : View → Option Allowance → ViewM α) : Prop :=
  ∀ s : State, s.Sound → x s = s.onMemo (y s.heap.view (mode.allowance s.depth))

/-! ### Steps -/

theorem follows_pure (a : α) : Follows mode (pure a) fun _ _ => pure a := fun _ _ => rfl

theorem follows_fail (e : EvalError) : Follows mode (.fail e : EvalM α) fun _ _ => .fail e :=
  fun _ _ => rfl

theorem follows_ofExcept (r : Except EvalError α) :
    Follows mode (.ofExcept r) fun _ _ => .ofExcept r :=
  fun _ _ => rfl

/-- A second step starts from a state with the same scope graph and the same depth. -/
theorem follows_bind {x : EvalM α} {y : View → Option Allowance → ViewM α} {f : α → EvalM β}
    {g : α → View → Option Allowance → ViewM β} (hx : Follows mode x y)
    (hf : ∀ a, Follows mode (f a) (g a)) :
    Follows mode (x >>= f) fun v d => y v d >>= fun a => g a v d := by
  intro s hs
  rw [Attempt.bind_run, State.onMemo_bind, hx s hs]
  unfold State.onMemo
  rcases hy : y s.heap.view (mode.allowance s.depth) s.memo with ⟨_ | a, m⟩
  · rfl
  · exact hf a (s.withMemo m) (State.sound_withMemo hs m)

/-- A call deeper counts for the body alone. -/
theorem follows_nested {x : EvalM α} {y : View → Option Allowance → ViewM α}
    (hx : Follows mode x y) : Follows mode (nested mode x) fun v d => deeper d (y v) := by
  intro s hs
  have hbody := hx { s with depth := s.depth + 1 } ⟨hs.acyclic, hs.settled⟩
  cases mode with
  | unlimited =>
    simp only [nested, Mode.limit?, nested.deeper, hbody]
    rfl
  | restricted limit =>
    simp only [nested, Mode.limit?, Mode.allowance, Option.map_some] at hbody ⊢
    by_cases hlim : limit < s.depth + 1
    · have hleft : limit - s.depth = 0 := by omega
      simp only [hlim, if_true, hleft, deeper]
      rfl
    · obtain ⟨left, hleft⟩ : ∃ left, limit - s.depth = left + 1 := ⟨limit - s.depth - 1, by omega⟩
      have hnext : limit - (s.depth + 1) = left := by omega
      rw [hnext] at hbody
      simp only [hlim, if_false, hleft, deeper, nested.deeper, hbody]
      rfl

/-! ### Guards -/

/-- What is run under a guard leaves behind what it remembers, and the scope graph
that the guard puts back. -/
theorem follows_underGuard {x : EvalM α} {y : View → Option Allowance → ViewM α}
    (hx : Follows mode x y) {s : State} (hs : s.Sound) (guard : Guard) {heap : Heap}
    (hac : heap.Acyclic) (hset : heap.Settled (joinHandles guard.handles s.held))
    (hback : heap.release guard = s.heap) :
    underGuard guard x { s with heap } = s.onMemo (y heap.view (mode.allowance s.depth)) := by
  -- What the slot held is in `guard.handles`, so it does not die while it is displaced.
  have hbody := hx { s with heap, held := joinHandles guard.handles s.held } ⟨hac, hset⟩
  simp only [underGuard, hbody, State.onMemo, State.withMemo, State.sweep, hback,
    Heap.sweep_of_settled hs.settled]
  rfl

theorem follows_withBinding {x : EvalM α} {y : View → Option Allowance → ViewM α}
    (hx : Follows mode x y) (e : EnvId) (name : Name) (w : Value) :
    Follows mode (withBinding e name w x) fun v d => y (v.bind e name w) d := by
  intro s hs
  have hrun := follows_underGuard hx hs (.binding e name (s.heap.local? e name))
    (Heap.acyclic_bind hs.acyclic e name w) (Heap.settled_bind hs.settled e name w)
    (Heap.restoreBinding_bind s.heap e name w)
  rw [Heap.view_bind] at hrun
  exact hrun

/-- A parent that does not have the frame on its chain is put under a guard. -/
theorem withParent_run_ok {x : EvalM α} {e parent : EnvId} {s : State}
    (ha : ¬ s.heap.hasAncestor parent e) :
    withParent e parent x s =
      underGuard (.parent e (s.heap.parent? e)) x
        { s with heap := s.heap.setParent e (some parent) } := by
  have hr : s.heap.swapParent e parent = .ok (.parent e (s.heap.parent? e),
      s.heap.setParent e (some parent)) := by
    simp only [Heap.swapParent, Heap.reparent, Option.any_some, ha]
    rfl
  unfold withParent
  simp only [Attempt.bind_run, Attempt.read, Attempt.ofExcept, hr, Attempt.update]

theorem withParent_run_error {x : EvalM α} {e parent : EnvId} {s : State}
    (ha : s.heap.hasAncestor parent e) : withParent e parent x s = (.error .cyclicScope, s) := by
  have hr : s.heap.swapParent e parent = .error .cyclicScope := by
    simp only [Heap.swapParent, Heap.reparent, Option.any_some, ha, if_true]
    rfl
  unfold withParent
  simp only [Attempt.bind_run, Attempt.read, Attempt.ofExcept, hr]

theorem follows_withParent {x : EvalM α} {y : View → Option Allowance → ViewM α}
    (hx : Follows mode x y) (e parent : EnvId) :
    Follows mode (withParent e parent x) fun v d =>
      if v.hasAncestor parent e then .fail .cyclicScope else y (v.setParent e parent) d := by
  intro s hs
  beta_reduce
  rw [Heap.hasAncestor_view hs.acyclic]
  by_cases ha : s.heap.hasAncestor parent e
  · rw [withParent_run_error ha, if_pos ha]
    rfl
  · have hrun := follows_underGuard hx hs (.parent e (s.heap.parent? e))
      (Heap.acyclic_setParent hs.acyclic ha) (Heap.settled_setParent hs.settled e (some parent))
      (Heap.setParent_setParent s.heap e (some parent))
    rw [Heap.view_setParent] at hrun
    rw [withParent_run_ok ha, if_neg ha]
    exact hrun

end Overscope
