-- A session: an interpreter with registers for environments, values and guards,
-- and the labels under which its environments are written. The registers hold
-- what they name, so a frame dies when the last register that leads to it is gone.
import Overscope.Eval.State

namespace Overscope

/-- Why a command gave no answer. -/
inductive Failure where
  | evaluation (e : EvalError)
  /-- The command names a register that is not there, or a value of a wrong kind. -/
  | malformed

structure Session where
  mode : Mode
  state : State
  envs : Table String EnvId
  values : Table String Value
  guards : Table String Guard
  /-- Registers that name a frame without holding it. -/
  weaks : Table String EnvId
  labels : Table EnvId String
  /-- How many labels were made up so far. -/
  madeUp : Nat
  /-- What the command that is being run holds. -/
  inHand : List EnvId

abbrev SessionM := Attempt Session Failure

/-- A session with a new interpreter. -/
def Session.initial (mode : Mode) : Session where
  mode
  state := .initial
  envs := .empty
  values := .empty
  guards := .empty
  weaks := .empty
  labels := (Table.empty.insert .base "base").insert .global "global"
  madeUp := 0
  inHand := []

/-! ## Holding and letting go -/

/-- The environments that the registers hold. -/
def Session.roots (s : Session) : List EnvId :=
  .base :: .global :: s.envs.values ++ s.values.values.flatMap Value.handles ++
    s.guards.values.flatMap Guard.handles

/-- Keeps environments in hand until the command is over. -/
def hold (es : List EnvId) : SessionM Unit :=
  .update fun s => { s with inHand := es ++ s.inHand }

/-- Brings up to date what is held from outside the scope graph. -/
def Session.grip (s : Session) : Session :=
  { s with state := { s.state with held := s.roots ++ s.inHand } }

/-- Lets die what neither a register nor the command holds. -/
def Session.settle (s : Session) : Session :=
  let s := s.grip
  { s with state := s.state.sweep }

/-- Runs a step of the interpreter. -/
def interpret {α : Type} (x : EvalM α) : SessionM α := fun s =>
  let s := s.grip
  match x s.state with
  | (.ok a, state) => (.ok a, { s with state })
  | (.error e, state) => (.error (.evaluation e), { s with state })

/-- Reads something off the scope graph. -/
def onHeap {α : Type} (f : Heap → α) : SessionM α := .read fun s => f s.state.heap

/-- Changes the scope graph. -/
def changeHeap (f : Heap → Heap) : SessionM Unit :=
  .update fun s => { s with state := { s.state with heap := f s.state.heap } }

/-- Changes the scope graph and gives what comes with the change. -/
def makeOnHeap {α : Type} (f : Heap → Except EvalError (α × Heap)) : SessionM α := do
  match ← onHeap f with
  | .ok (a, heap) => do
    changeHeap fun _ => heap
    pure a
  | .error e => .fail (.evaluation e)

/-! ## Registers and labels -/

/-- The environment that a register names. -/
def readEnv (register : String) : SessionM EnvId := do
  let e ← match register with
    | "base" => pure .base
    | "global" => pure .global
    | _ => .ofOption .malformed (← .read (·.envs.get? register))
  hold [e]
  pure e

/-- The environment that a register names, where there may be none. -/
def readEnv? : Option String → SessionM (Option EnvId)
  | some register => some <$> readEnv register
  | none => pure none

/-- Keeps an environment in a register. A frame that has no label yet is labelled
by the register, unless the label is taken. -/
def keepEnv (e : EnvId) : Option String → SessionM Unit
  | none => pure ()
  | some register => .update fun s =>
    let labels :=
      if s.labels.contains e || s.labels.values.contains register then s.labels
      else s.labels.insert e register
    { s with envs := s.envs.insert register e, labels }

/-- Keeps a value in a register. -/
def keepValue (v : Value) : Option String → SessionM Unit
  | none => pure ()
  | some register => .update fun s => { s with values := s.values.insert register v }

/-- The label of an environment. One that has none yet gets the next number. -/
def labelOf (e : EnvId) : SessionM String := fun s =>
  match s.labels.get? e with
  | some label => (.ok label, s)
  | none =>
    let label := "#" ++ toString (s.madeUp + 1)
    (.ok label, { s with labels := s.labels.insert e label, madeUp := s.madeUp + 1 })

def labelOf? : Option EnvId → SessionM (Option String)
  | some e => some <$> labelOf e
  | none => pure none

end Overscope
