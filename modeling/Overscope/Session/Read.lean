-- Reading what a script writes. Texts are interned in the order of reading, which
-- is the order in which they get their indices.
import Overscope.Code.Entries
import Overscope.Session.Basic
import Overscope.Session.Term

namespace Overscope

def readName (text : String) : SessionM Name := fun s =>
  let (n, interner) := s.state.interner.intern text
  (.ok n, { s with state := { s.state with interner } })

/-- Interns a text as long as there is a name left, as there is in every script. -/
def tryReadName (text : String) : SessionM Name := fun s =>
  match s.state.interner.tryIntern text with
  | (.ok n, interner) => (.ok n, { s with state := { s.state with interner } })
  | (.error _, _) => (.error .malformed, s)

def readName? : Option String → SessionM (Option Name)
  | some text => some <$> readName text
  | none => pure none

def readHead : HeadTerm → SessionM Head
  | .symbol text => .symbol <$> readName text
  | .inlined p => pure (.inlined p)

/-- What a repeated call builds. -/
def nestCalls (count : Nat) (function : Name) (start arg : Expr) (side : Side) : Expr :=
  Nat.repeat
    (fun acc => .call (.symbol function) (match side with
      | .left => .cons acc (.cons arg .nil)
      | .right => .cons arg (.cons acc .nil)))
    count start

mutual

def readExpr : ExprTerm → SessionM Expr
  | .missing => pure .missing
  | .symbol text => .symbol <$> readName text
  | .rawSymbol index => pure (.symbol ⟨index⟩)
  | .const v => .const <$> readValue v
  | .call head args => do
    let head ← readHead head
    let args ← readArgs args
    pure (.call head args)
  | .nest count function start arg side => do
    let function ← readName function
    let start ← readExpr start
    let arg ← readExpr arg
    pure (nestCalls count function start arg side)
termination_by structural e => e

def readValue : ValueTerm → SessionM Value
  | .null => pure .null
  | .missing => pure .missing
  | .bool b => pure (.bool b)
  | .int n => pure (.int n)
  | .float x => pure (.float x)
  | .str s => pure (.str s)
  | .list kind entries => do
    let entries ← readEntries entries
    pure (.list kind entries)
  | .code e => .code <$> readExpr e
  | .formula kind head args env => do
    let head ← readHead head
    let args ← readArgs args
    let env ← readEnv? env
    pure (.formula head args env kind)
  | .env register => .env <$> readEnv register
  | .builtin p => pure (.builtin p)
  | .override mask top => do
    let mask ← readEnv mask
    let top ← readEnv top
    pure (.override ⟨mask, top⟩)
  | .pronoun source absence => do
    match ← readValue source with
    | .list kind entries => pure (.pronoun (.list kind entries) absence)
    | .env e => pure (.pronoun (.env e) absence)
    | _ => .fail .malformed
  | .missingQuosure => pure (Formula.quosure .missing none).toValue
  | .quosure e env => do
    let e ← readExpr e
    let env ← readEnv? env
    pure (Formula.quosure e env).toValue
  | .tildeCall args => do
    let args ← readArgs args
    pure (.code (.call (.symbol .tilde) args))
  | .register name => do
    let v ← .ofOption .malformed (← .read (·.values.get? name))
    hold v.handles
    pure v
termination_by structural v => v

def readEntry : EntryTerm → SessionM Entry
  | .mk name value => do
    let name ← readName? name
    let value ← readValue value
    pure ⟨name, value⟩
termination_by structural e => e

def readArgs : List ExprTerm → SessionM Args
  | [] => pure .nil
  | e :: es => do
    let e ← readExpr e
    let rest ← readArgs es
    pure (.cons e rest)
termination_by structural es => es

def readEntries : List EntryTerm → SessionM Entries
  | [] => pure .nil
  | e :: es => do
    let e ← readEntry e
    let rest ← readEntries es
    pure (.cons e.name e.value rest)
termination_by structural es => es

end

end Overscope
