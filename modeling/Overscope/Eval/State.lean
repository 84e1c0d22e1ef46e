-- What an evaluation works on, and the ways in which it takes hold of the scope
-- graph and lets go of it again.
import Overscope.Attempt
import Overscope.Interner
import Overscope.Scope.Guard
import Overscope.Scope.Liveness

namespace Overscope

/-- How deep calls may nest. -/
inductive Mode where
  | unlimited
  | restricted (maxDepth : Nat)
deriving DecidableEq, Repr

def Mode.limit? : Mode → Option Nat
  | .unlimited => none
  | .restricted maxDepth => some maxDepth

/-- The state of an interpreter. -/
structure State where
  interner : Interner
  heap : Heap
  /-- How many calls are being evaluated, one inside the other. -/
  depth : Nat
  /-- The operator that base bound to `~` when it was first asked for. -/
  tilde : Option Primitive
  /-- The environments held from outside the scope graph. -/
  held : List EnvId

abbrev EvalM := Attempt State EvalError

/-! ## A new interpreter -/

/-- Binds every operator to its symbol. -/
def Frame.base : Frame :=
  ⟨Primitive.all.foldl (fun t p => t.insert p.name (.builtin p)) .empty, none⟩

/-- The base frame and the global frame inside it. -/
def Heap.initial : Heap := ⟨#[some .base, some (.empty (some .base))]⟩

def State.initial : State := ⟨.initial, .initial, 0, none, [.base, .global]⟩

/-! ## Steps -/

/-- Lets die the frames that nothing holds. -/
def State.sweep (s : State) : State := { s with heap := s.heap.sweep s.held }

/-- The name of a text. -/
def internName (text : String) : EvalM Name := fun s =>
  let (n, interner) := s.interner.intern text
  (.ok n, { s with interner })

/-- The text of a name. -/
def nameText (n : Name) : EvalM String := .read (·.interner.text n)

/-- Runs `body` one call deeper, unless that is too deep. -/
def nested {α : Type} (mode : Mode) (body : EvalM α) : EvalM α := fun s =>
  match mode.limit? with
  | some limit =>
    if limit < s.depth + 1 then (.error (.recursionLimit limit), s) else deeper s
  | none => deeper s
where
  deeper (s : State) :=
    let (r, s') := body { s with depth := s.depth + 1 }
    (r, { s' with depth := s'.depth - 1 })

/-- Runs `body` while `guard` is in force. What the slot held before stays held,
and comes back however `body` ends. -/
def underGuard {α : Type} (guard : Guard) (body : EvalM α) : EvalM α := fun s =>
  let (r, s') := body { s with held := joinHandles guard.handles s.held }
  (r, { s' with heap := s'.heap.release guard, held := s.held : State }.sweep)

/-- Runs `body` with a binding of a frame replaced. -/
def withBinding {α : Type} (e : EnvId) (name : Name) (v : Value) (body : EvalM α) : EvalM α := do
  let (guard, heap) ← .read (·.heap.swapBinding e name v)
  .update ({ · with heap })
  underGuard guard body

/-- Runs `body` with a frame under another parent. -/
def withParent {α : Type} (e parent : EnvId) (body : EvalM α) : EvalM α := do
  let (guard, heap) ← .ofExcept (← .read (·.heap.swapParent e parent))
  .update ({ · with heap })
  underGuard guard body

/-- The environment that a frame itself binds to the name. -/
def localEnv (e : EnvId) (name : Name) : EvalM EnvId := do
  match ← .read (·.heap.local? e name) with
  | some (.env f) => pure f
  | some v => .fail (.typeMismatch "environment" v.typeName)
  | none => .fail (.undefinedVariable (← nameText name))

end Overscope
