-- Writing answers. Environments that are written for the first time get their
-- labels in the order of writing.
import Overscope.Session.Basic
import Overscope.Session.View

namespace Overscope

def writeName (n : Name) : SessionM String := .read fun s => s.state.interner.text n

def writeName? : Option Name → SessionM (Option String)
  | some n => some <$> writeName n
  | none => pure none

def writeHead : Head → SessionM HeadView
  | .symbol n => .symbol <$> writeName n
  | .inlined p => pure (.inlined p)

mutual

def writeExpr : Expr → SessionM ExprView
  | .const v => .const <$> writeValue v
  | .symbol n => .symbol <$> writeName n
  | .call head args => do
    let head ← writeHead head
    let args ← writeArgs args
    pure (.call head args)
  | .missing => pure .missing
termination_by structural e => e

def writeValue : Value → SessionM ValueView
  | .null => pure .null
  | .missing => pure .missing
  | .bool b => pure (.bool b)
  | .int n => pure (.int n)
  | .float x => pure (.float x)
  | .str s => pure (.str s)
  | .list kind entries => .list kind <$> writeEntries entries
  | .code e => .code <$> writeExpr e
  | .formula head args env kind => do
    let head ← writeHead head
    let args ← writeArgs args
    let env ← labelOf? env
    pure (.formula kind head args env)
  | .env e => .env <$> labelOf e
  | .builtin p => pure (.builtin p)
  | .override ⟨mask, top⟩ => do
    if ← onHeap fun h => h.isLive mask && h.isLive top then do
      let mask ← labelOf mask
      let top ← labelOf top
      pure (.override mask top)
    else pure .droppedOverride
  | .pronoun _ absence => pure (.pronoun absence)
termination_by structural v => v

def writeArgs : Args → SessionM (List ExprView)
  | .nil => pure []
  | .cons e rest => do
    let e ← writeExpr e
    let rest ← writeArgs rest
    pure (e :: rest)
termination_by structural args => args

def writeEntries : Entries → SessionM (List EntryView)
  | .nil => pure []
  | .cons name value rest => do
    let name ← writeName? name
    let value ← writeValue value
    let rest ← writeEntries rest
    pure (.mk name value :: rest)
termination_by structural entries => entries

end

def writeExpr? : Option Expr → SessionM (Option ExprView)
  | some e => some <$> writeExpr e
  | none => pure none

/-- Writes the bindings of a frame one after the other. -/
def writeBindings : List (String × Value) → SessionM (List (String × ValueView))
  | [] => pure []
  | (text, v) :: rest => do
    let v ← writeValue v
    let rest ← writeBindings rest
    pure ((text, v) :: rest)

end Overscope
