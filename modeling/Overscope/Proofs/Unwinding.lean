-- Programs that release their guards in the order of brackets. Each guard that is still in
-- force leads back to the scope graph from before it, where the older guards lead further
-- back, and the last one to the graph at the start. What is done keeps this stack of graphs:
-- a swap adds to it, a release takes its top away, and an evaluation leaves it as it is.
import Overscope.Proofs.Host
import Overscope.Proofs.Preservation
import Overscope.Proofs.Splicing

namespace Overscope

/-! ## Inside of evaluations -/

/-- Evaluation splices a scope in only where that closes no cycle. -/
theorem preserved_sound :
    Preserved (fun _ => True) State.Sound (fun _ => True) fun _ => True where
  settled hs := hs.settled
  learns hs hl := hl.sound hs
  nested hs := ⟨hs.acyclic, hs.settled⟩
  override _ _ _ := trivial
  mask _ := trivial
  scope _ _ := trivial
  spliced hs _ _ hoff := State.sound_spliced hs (Bool.eq_false_iff.1 hoff)

/-! ## What a program does -/

/-- A new parent or a new binding under a guard, a release of the newest guard, and the
evaluations. -/
def Act.nests : Act → Bool
  | .swapParent _ _ | .swapBinding _ _ _ | .release 0 => true
  | .eval _ _ | .evalTilde _ _ _ | .toFormula _ _ => true
  | _ => false

/-- The evaluations that are started when it is done. -/
def Act.visits (mode : Mode) (s : Host) (act : Act) : List Visit :=
  let t : State := { s.state with held := act.handles ++ s.holds }
  match act with
  | .eval e env => (e.trace mode env).visits t
  | .evalTilde v overscope top => (v.traceTilde mode overscope top).visits t
  | .toFormula v env => (v.traceFormula mode env).visits t
  | .evalWithData code data env => (traceWithData mode code data env).visits t
  | _ => []

/-! ## The way back -/

/-- All that a program holds that has the given environments and guards. -/
def Guard.holders (own : List EnvId) (guards : List Guard) : List EnvId :=
  .base :: .global :: own ++ guards.flatMap Guard.handles

/-- The guards, newest first, lead back from a scope graph to `start`. None of the graphs on
the way has a cycle, and in each every frame has a holder. -/
inductive Unwinds (start : Heap) (own : List EnvId) : Heap → List Guard → Prop
  | nil (hac : start.Acyclic) (hset : start.Settled (Guard.holders own [])) :
      Unwinds start own start []
  | cons {h : Heap} {guard : Guard} {guards : List Guard} (hac : h.Acyclic)
      (hset : h.Settled (Guard.holders own (guard :: guards)))
      (hback : Unwinds start own (h.release guard) guards) : Unwinds start own h (guard :: guards)

namespace Unwinds

variable {start h : Heap} {own own' : List EnvId} {guards : List Guard}

theorem acyclic (hu : Unwinds start own h guards) : h.Acyclic := by
  cases hu <;> assumption

theorem settled (hu : Unwinds start own h guards) : h.Settled (Guard.holders own guards) := by
  cases hu <;> assumption

/-- All guards released, the newest first. -/
theorem foldl_release (hu : Unwinds start own h guards) :
    guards.foldl Heap.release h = start := by
  induction hu with
  | nil => rfl
  | cons _ _ _ ih => exact ih

/-- It does no harm to hold more. -/
theorem mono (hu : Unwinds start own h guards) (hsub : own ⊆ own') :
    Unwinds start own' h guards := by
  have hmore : ∀ gs, Guard.holders own gs ⊆ Guard.holders own' gs := by
    intro gs x hx
    rcases List.mem_append.1 hx with hx | hx
    · exact List.mem_append_left _ (List.cons_subset_cons _ (List.cons_subset_cons _ hsub) hx)
    · exact List.mem_append_right _ hx
  induction hu with
  | nil hac hset => exact .nil hac (Heap.settled_of_subset hset (hmore _))
  | cons hac hset _ ih => exact .cons hac (Heap.settled_of_subset hset (hmore _)) ih

theorem subset_holders_cons (own : List EnvId) (guard : Guard) (guards : List Guard) :
    Guard.holders own guards ⊆ Guard.holders own (guard :: guards) := by
  intro x hx
  rcases List.mem_append.1 hx with hx | hx
  · exact List.mem_append_left _ hx
  · exact List.mem_append_right _ (List.mem_append_right guard.handles hx)

theorem mem_holders_of_handles {guard : Guard} {x : EnvId} (hx : x ∈ guard.handles)
    (own : List EnvId) (guards : List Guard) : x ∈ Guard.holders own (guard :: guards) :=
  List.mem_append_right _ (List.mem_append_left _ hx)

/-- A parent that is accepted goes onto the stack. -/
theorem swapParent (hu : Unwinds start own h guards) {e parent : EnvId}
    (hoff : ¬ h.hasAncestor parent e) :
    Unwinds start own (h.setParent e (some parent)) (.parent e (h.parent? e) :: guards) := by
  refine .cons (Heap.acyclic_setParent hu.acyclic hoff) ?_ ?_
  -- The guard holds the old parent, and that is all that the frame no longer holds.
  · refine Heap.settled_setParent_of_held hu.settled
      (subset_holders_cons own (.parent e (h.parent? e)) guards) (fun x hx => ?_) _
    refine mem_holders_of_handles ?_ own guards
    exact List.mem_cons_of_mem e (Option.mem_toList.2 hx)
  · rw [Heap.release, Heap.setParent_setParent]
    exact hu

/-- So does a binding, whether the name was bound or not. -/
theorem swapBinding (hu : Unwinds start own h guards) (e : EnvId) (name : Name) (v : Value) :
    Unwinds start own (h.bind e name v) (.binding e name (h.local? e name) :: guards) := by
  refine .cons (Heap.acyclic_bind hu.acyclic e name v) ?_ ?_
  · refine Heap.settled_bind_of_held hu.settled
      (subset_holders_cons own (.binding e name (h.local? e name)) guards) (fun w hw x hx => ?_) v
    refine mem_holders_of_handles ?_ own guards
    rw [Guard.handles, Option.mem_def.1 hw]
    exact List.mem_cons_of_mem e hx
  · rw [Heap.release, Heap.restoreBinding_bind]
    exact hu

end Unwinds

namespace Host

variable {start : Heap} {s : Host}

/-- The guards of the program lead back to `start`. -/
def Nested (start : Heap) (s : Host) : Prop := Unwinds start s.own s.state.heap s.guards

/-- Nothing dies, since all that was displaced is held by a guard. -/
theorem nested_settle (hs : s.Nested start) : s.settle.Nested start := by
  have hheap : s.settle.state.heap = s.state.heap := Heap.sweep_of_settled hs.settled
  show Unwinds start s.own s.settle.state.heap s.guards
  rw [hheap]
  exact hs

/-- Whatever operands are held besides, evaluation starts from a sound state. -/
theorem Nested.sound (hs : s.Nested start) (handles : List EnvId) :
    ({ s.state with held := handles ++ s.holds } : State).Sound :=
  ⟨hs.acyclic, Heap.settled_of_subset hs.settled (List.subset_append_right _ _)⟩

theorem nested_evaluate (hs : s.Nested start) (handles : List EnvId) {x : EvalM Value}
    (hx : PutsBack x) : (s.evaluate handles x).Nested start := by
  have hback := hx _ (hs.sound handles).settled
  apply nested_settle
  show Unwinds start (_ ++ s.own) (x { s.state with held := handles ++ s.holds }).2.heap s.guards
  rw [hback.heap]
  exact hs.mono (List.subset_append_right _ _)

/-- Each thing that is done keeps the way back to the start. -/
theorem nested_after (mode : Mode) (hs : s.Nested start) {act : Act} (hnests : act.nests) :
    (s.after mode act).Nested start := by
  cases act with
  | swapParent e parent =>
    simp only [after, Heap.swapParent]
    rcases hr : s.state.heap.reparent e (some parent) with err | h
    · exact hs
    · obtain ⟨hoff, rfl⟩ := Heap.reparent_eq_ok_iff.1 hr
      exact nested_settle (Unwinds.swapParent hs (Bool.eq_false_iff.1 hoff))
  | swapBinding e name v => exact nested_settle (Unwinds.swapBinding hs e name v)
  | release index =>
    obtain rfl : index = 0 := by
      cases index with
      | zero => rfl
      | succ index => cases hnests
    obtain ⟨state, own, guards⟩ := s
    cases hs with
    | nil hac hset => exact .nil hac hset
    | cons hac hset hback => exact nested_settle hback
  | eval e env => exact nested_evaluate hs _ (e.putsBack_eval mode env)
  | evalTilde v overscope top => exact nested_evaluate hs _ (v.putsBack_evalTilde mode overscope top)
  | toFormula v env => exact nested_evaluate hs _ (v.putsBack_toFormula mode env)
  | _ => cases hnests

/-- Meanwhile no evaluation is started in a scope graph with a cycle. -/
theorem acyclic_of_visit (mode : Mode) (hs : s.Nested start) {act : Act} (hnests : act.nests) :
    ∀ v ∈ act.visits mode s, v.state.heap.Acyclic := by
  have hsound := hs.sound act.handles
  cases act with
  | eval e env =>
    exact fun v hv => ((e.preserves_trace preserved_sound mode (fun _ _ => trivial)
      trivial).visits hsound v hv).2.acyclic
  | evalTilde w overscope top =>
    exact fun v hv => ((w.preserves_traceTilde preserved_sound mode (fun _ _ => trivial)
      trivial).visits hsound v hv).2.acyclic
  | toFormula w env =>
    exact fun v hv => ((w.preserves_traceFormula preserved_sound mode (fun _ _ => trivial)
      trivial).visits hsound v hv).2.acyclic
  | evalWithData code data env => cases hnests
  | _ => exact fun v hv => absurd hv List.not_mem_nil

/-! ## Runs -/

theorem nested_met (mode : Mode) (hs : s.Nested start) {acts : List Act}
    (hnests : ∀ act ∈ acts, act.nests) :
    (∀ t ∈ s.met mode acts, t.Nested start) ∧
      s.Throughout mode (fun t act => ∀ v ∈ act.visits mode t, v.state.heap.Acyclic) acts := by
  induction acts generalizing s with
  | nil =>
    refine ⟨fun t ht => ?_, trivial⟩
    rw [List.mem_singleton.1 ht]
    exact hs
  | cons act acts ih =>
    rw [List.forall_mem_cons] at hnests
    obtain ⟨hmet, hvisits⟩ := ih (nested_after mode hs hnests.1) hnests.2
    refine ⟨?_, acyclic_of_visit mode hs hnests.1, hvisits⟩
    exact List.forall_mem_cons.2 ⟨hs, hmet⟩

/-- From any scope graph without a cycle, and whatever a program swaps, evaluates and
releases, in any mode, as long as it releases the newest guard each time: no graph on the
way has a cycle, those inside of evaluations included, the guards that are in force lead
back to the graph at the start, and once there is none of them every frame is as it was. -/
theorem nested_undoes (mode : Mode) {s : Host} (hac : s.state.heap.Acyclic)
    (hset : s.state.heap.Settled s.holds) (hnone : s.guards = []) {acts : List Act}
    (hnests : ∀ act ∈ acts, act.nests) :
    (∀ t ∈ s.met mode acts,
      t.state.heap.Acyclic ∧ t.guards.foldl Heap.release t.state.heap = s.state.heap ∧
        (t.guards = [] → t.state.heap = s.state.heap)) ∧
      s.Throughout mode (fun t act => ∀ v ∈ act.visits mode t, v.state.heap.Acyclic) acts := by
  have hstart : s.Nested s.state.heap := by
    rw [holds, hnone] at hset
    rw [Nested, hnone]
    exact .nil hac hset
  obtain ⟨hmet, hvisits⟩ := nested_met mode hstart hnests
  refine ⟨fun t ht => ?_, hvisits⟩
  have hback := (hmet t ht).foldl_release
  refine ⟨(hmet t ht).acyclic, hback, fun hreleased => ?_⟩
  rw [hreleased] at hback
  exact hback

/-! ### Slots that are swapped twice -/

/-- In the sample mask the top frame goes to the global environment and is not taken by it,
the name ⟨14⟩, which the mask does not bind, gets two values, and a quosure is evaluated. Then
the three guards are released. -/
def nestedRun : List Act :=
  [.swapParent ⟨3⟩ .global, .swapParent .global ⟨4⟩, .swapBinding ⟨4⟩ ⟨14⟩ (.int 1),
    .swapBinding ⟨4⟩ ⟨14⟩ (.env ⟨2⟩), .evalTilde Formula.sample.toValue ⟨4⟩ ⟨3⟩, .release 0,
    .release 0, .release 0]

theorem nested_undoes_nestedRun :
    let s : Host := ⟨.sample, [⟨4⟩], []⟩
    s.state.heap.Acyclic ∧ s.state.heap.Settled s.holds ∧ (∀ act ∈ nestedRun, act.nests) ∧
      ((s.met .unlimited nestedRun).map fun t => t.guards.length) = [0, 1, 1, 2, 3, 3, 2, 1, 0] ∧
      ∀ t ∈ s.met .unlimited nestedRun, t.guards = [] → t.state.heap = s.state.heap := by
  intro s
  have hac : s.state.heap.Acyclic := by decide +kernel
  have hset : s.state.heap.Settled s.holds := by decide +kernel
  have hnests : ∀ act ∈ nestedRun, act.nests := by decide
  refine ⟨hac, hset, hnests, by decide +kernel, fun t ht => ?_⟩
  exact ((nested_undoes .unlimited hac hset rfl hnests).1 t ht).2.2

end Host

end Overscope
