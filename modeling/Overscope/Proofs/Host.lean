-- Programs that work with an interpreter. A program holds environments and guards,
-- and does one thing after the other: it makes frames, writes and rewires them,
-- releases guards in any order, and evaluates.
import Overscope.Mask.Eval

namespace Overscope

/-- An interpreter and what a program holds. The newest guard comes first. -/
structure Host where
  state : State
  own : List EnvId
  guards : List Guard

/-- What a program can do. -/
inductive Act where
  /-- Takes a handle of an environment that it came across. -/
  | take (e : EnvId)
  | letGo (e : EnvId)
  | newFrame (parent : Option EnvId)
  | copyFrame (e : EnvId) (parent : Option EnvId)
  | bind (e : EnvId) (name : Name) (v : Value)
  | unbind (e : EnvId) (name : Name)
  | clear (e : EnvId)
  | setParent (e : EnvId) (parent : Option EnvId)
  | swapParent (e parent : EnvId)
  | swapBinding (e : EnvId) (name : Name) (v : Value)
  /-- Releases the guard with that many newer ones. -/
  | release (index : Nat)
  | eval (e : Expr) (env : EnvId)
  | evalTilde (v : Value) (overscope top : EnvId)
  | toFormula (v : Value) (env : EnvId)
  | evalWithData (code data : Value) (env : EnvId)

/-- The environments that are named to do it. -/
def Act.handles : Act → List EnvId
  | .take e => [e]
  | .letGo e => [e]
  | .newFrame parent => parent.toList
  | .copyFrame e parent => e :: parent.toList
  | .bind e _ v => e :: v.handles
  | .unbind e _ => [e]
  | .clear e => [e]
  | .setParent e parent => e :: parent.toList
  | .swapParent e parent => [e, parent]
  | .swapBinding e _ v => e :: v.handles
  | .release _ => []
  | .eval e env => env :: e.handles
  | .evalTilde v overscope top => overscope :: top :: v.handles
  | .toFormula v env => env :: v.handles
  | .evalWithData code data env => env :: code.handles ++ data.handles

namespace Host

/-- A new interpreter. -/
def initial : Host := ⟨.initial, [], []⟩

/-- All that is held: by the interpreter, by the program, and through its guards. -/
def holds (s : Host) : List EnvId :=
  .base :: .global :: s.own ++ s.guards.flatMap Guard.handles

def withHeap (s : Host) (heap : Heap) : Host := { s with state := { s.state with heap } }

/-- Lets die what nothing holds. -/
def settle (s : Host) : Host :=
  { s with state := ({ s.state with held := s.holds } : State).sweep }

/-- Evaluates while the operands are held, and keeps the result. -/
def evaluate (s : Host) (handles : List EnvId) (x : EvalM Value) : Host :=
  let (r, state) := x { s.state with held := handles ++ s.holds }
  let kept := match r with
    | .ok v => v.handles
    | .error _ => []
  settle { s with state, own := kept ++ s.own }

/-- The program does something. What is refused changes nothing. A parent or a value
that is replaced comes back to the program. -/
def after (mode : Mode) (s : Host) (act : Act) : Host :=
  let heap := s.state.heap
  match act with
  | .take e => settle { s with own := e :: s.own }
  | .letGo e => settle { s with own := s.own.erase e }
  | .newFrame parent =>
    let (e, heap) := heap.alloc (.empty parent)
    settle { s.withHeap heap with own := e :: s.own }
  | .copyFrame e parent =>
    let (f, heap) := heap.copyFrame e parent
    settle { s.withHeap heap with own := f :: s.own }
  | .bind e name v => settle (s.withHeap (heap.bind e name v))
  | .unbind e name =>
    let removed := ((heap.local? e name).map Value.handles).getD []
    settle { s.withHeap (heap.unbind e name) with own := removed ++ s.own }
  | .clear e => settle (s.withHeap (heap.clear e))
  | .setParent e parent => match heap.reparent e parent with
    | .ok heap' => settle { s.withHeap heap' with own := (heap.parent? e).toList ++ s.own }
    | .error _ => s
  | .swapParent e parent => match heap.swapParent e parent with
    | .ok (guard, heap') => settle { s.withHeap heap' with guards := guard :: s.guards }
    | .error _ => s
  | .swapBinding e name v =>
    let (guard, heap) := heap.swapBinding e name v
    settle { s.withHeap heap with guards := guard :: s.guards }
  | .release index => match s.guards[index]? with
    | some guard =>
      settle { s.withHeap (heap.release guard) with guards := s.guards.eraseIdx index }
    | none => s
  | .eval e env => s.evaluate act.handles (e.eval mode env)
  | .evalTilde v overscope top => s.evaluate act.handles (v.evalTilde mode overscope top)
  | .toFormula v env => s.evaluate act.handles (v.toFormula mode env)
  | .evalWithData code data env => s.evaluate act.handles (Overscope.evalWithData mode code data env)

/-- What a run meets, the start and the end included. -/
def met (mode : Mode) (s : Host) : List Act → List Host
  | [] => [s]
  | act :: acts => s :: met mode (s.after mode act) acts

theorem mem_met_self (mode : Mode) (s : Host) (acts : List Act) : s ∈ s.met mode acts := by
  cases acts with
  | nil => exact List.mem_singleton_self s
  | cons act acts => exact List.mem_cons_self ..

/-- What is so of everything that is done in a run, when it is done. -/
def Throughout (mode : Mode) (p : Host → Act → Prop) (s : Host) : List Act → Prop
  | [] => True
  | act :: acts => p s act ∧ Throughout mode p (s.after mode act) acts

instance (mode : Mode) (p : Host → Act → Prop) [∀ s act, Decidable (p s act)] :
    ∀ (s : Host) (acts : List Act), Decidable (Throughout mode p s acts)
  | _, [] => inferInstanceAs (Decidable True)
  | s, act :: acts =>
    have := instDecidableThroughout mode p (s.after mode act) acts
    inferInstanceAs (Decidable (p s act ∧ Throughout mode p (s.after mode act) acts))

end Host

end Overscope
