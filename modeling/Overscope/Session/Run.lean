-- Running commands. A command reads its terms in their order, does its work,
-- keeps its result in a register if it is asked to, and writes the answer. A
-- command that fails keeps nothing.
import Overscope.Code.Equality
import Overscope.Mask.Eval
import Overscope.Session.Command
import Overscope.Session.Read
import Overscope.Session.Write

namespace Overscope

/-! ## Answers -/

/-- Writes a value, which is alive while it is written. -/
def answerValue (v : Value) : SessionM Answer := do
  hold v.handles
  .update Session.settle
  .value <$> writeValue v

def answerValue? : Option Value → SessionM Answer
  | some v => answerValue v
  | none => pure .nothing

def answerEnv (e : EnvId) : SessionM Answer := .label <$> labelOf e

def answerEnv? : Option EnvId → SessionM Answer
  | some e => answerEnv e
  | none => pure .nothing

/-- Keeps an environment and answers with its label. -/
def keepAndAnswerEnv (e : EnvId) (into : Option String) : SessionM Answer := do
  keepEnv e into
  answerEnv e

/-- Keeps a value and answers with it. -/
def keepAndAnswer (v : Value) (into : Option String) : SessionM Answer := do
  hold v.handles
  keepValue v into
  answerValue v

/-! ## Terms of one kind -/

def readFormula (term : ValueTerm) : SessionM Formula := do
  .ofOption .malformed (← readValue term).formula?

def readList (term : ValueTerm) : SessionM (ListKind × Entries) := do
  match ← readValue term with
  | .list kind entries => pure (kind, entries)
  | _ => .fail .malformed

/-- The data of a pronoun. -/
def readPronoun (term : ValueTerm) : SessionM DataSource := do
  match ← readValue term with
  | .pronoun source _ => pure source
  | _ => .fail .malformed

def readOverride (term : ValueTerm) : SessionM Override := do
  match ← readValue term with
  | .override t => pure t
  | _ => .fail .malformed

/-! ## Facts -/

/-- The environment of a value: an environment itself, or a formula's own. -/
def Value.scope? : Value → Option EnvId
  | .env e => some e
  | .formula _ _ own _ => own
  | _ => none

def Value.facts (v : Value) : ValueFacts where
  typeName := v.typeName
  isCallable := v.isCallable
  isMissing := v.isMissing
  isEnv := v.env?.isSome
  isFormula := v.formula?.isSome
  isQuosure := v.quosure?.isSome

def writeFormulaFacts (f : Formula) : SessionM FormulaFacts := do
  let lhs ← writeExpr? f.lhs?
  let rhs ← writeExpr? f.rhs?
  pure ⟨lhs, rhs, f.isQuosure, f.isMissingQuosure⟩

def writeListFacts (kind : ListKind) (entries : Entries) : SessionM ListFacts := do
  let named ← entries.named.mapM fun (n, _) => writeName n
  let duplicate ← writeName? entries.firstDuplicate?
  let es := entries.toList
  pure ⟨es.length, es.isEmpty, entries.hasNames, kind = .dataFrame, named, duplicate⟩

/-- The bindings of a frame sorted by the texts of their names, then its parent. -/
def writeFrame (e : EnvId) : SessionM FrameView := do
  let bindings ← onHeap (·.bindings e)
  let interner ← .read (·.state.interner)
  let pairs := bindings.entries.map fun (n, v) => (interner.text n, v)
  let bindings ← writeBindings (pairs.mergeSort fun p q => !(q.1 < p.1))
  let parent ← labelOf? (← onHeap (·.parent? e))
  pure ⟨bindings, parent⟩

/-! ## Commands -/

/-- Releases the guard of a register, if there is one, and says whether there was. -/
def releaseGuard (register : String) : SessionM Bool := do
  match ← .read (·.guards.get? register) with
  | some guard => do
    .update fun s => { s with guards := s.guards.erase register }
    changeHeap (·.release guard)
    pure true
  | none => pure false

/-- Keeps a guard in a register. A guard that was there is released. -/
def keepGuard (guard : Guard) (register : String) : SessionM Unit := do
  let _ ← releaseGuard register
  .update fun s => { s with guards := s.guards.insert register guard }

/-- Runs one command. -/
def runCommand : Command → SessionM Answer
  -- Names.
  | .intern text => do return .count (← readName text).index
  | .tryIntern text => .name <$> tryReadName text
  | .nameText index => .text <$> writeName ⟨index⟩
  | .internerSize => .read fun s => .size s.state.interner.size s.state.interner.isEmpty
  | .primitives => pure (.primitives Primitive.all)
  -- Frames and their registers.
  | .newFrame parent into => do
    let parent ← readEnv? parent
    let e ← makeOnHeap fun h => .ok (h.alloc (.empty parent))
    keepAndAnswerEnv e into
  | .copyFrame parent env into => do
    let parent ← readEnv? parent
    let env ← readEnv env
    let e ← makeOnHeap fun h => .ok (h.copyFrame env parent)
    keepAndAnswerEnv e into
  | .alias env into => do keepAndAnswerEnv (← readEnv env) into
  | .envOf value into => do
    match (← readValue value).scope? with
    | some e => keepAndAnswerEnv e into
    | none => pure .nothing
  | .dropEnv env => do
    let known ← .read (·.envs.contains env)
    .update fun s => { s with envs := s.envs.erase env }
    pure (.flag known)
  | .downgrade env weak => do
    let e ← readEnv env
    .update fun s => { s with weaks := s.weaks.insert weak e }
    pure .nothing
  | .upgrade weak => do
    let e ← .ofOption .malformed (← .read (·.weaks.get? weak))
    if ← onHeap (·.isLive e) then answerEnv e else pure .nothing
  | .sameEnv env other => do
    let e ← readEnv env
    let f ← readEnv other
    pure (.flag (e = f))
  -- Bindings.
  | .bind env name value => do
    let e ← readEnv env
    let name ← readName name
    let v ← readValue value
    changeHeap (·.bind e name v)
    pure .nothing
  | .unbind env name => do
    let e ← readEnv env
    let name ← readName name
    let v ← onHeap (·.local? e name)
    changeHeap (·.unbind e name)
    answerValue? v
  | .localBinding env name => do
    let e ← readEnv env
    let name ← readName name
    answerValue? (← onHeap (·.local? e name))
  | .hasLocal env name => do
    let e ← readEnv env
    let name ← readName name
    .flag <$> onHeap (·.hasLocal e name)
  | .resolve env name => do
    let e ← readEnv env
    let name ← readName name
    answerValue? (← onHeap (·.resolve? e name))
  | .resolveCallable env name => do
    let e ← readEnv env
    let name ← readName name
    answerValue? (← onHeap (·.resolveWhere? e name Value.isCallable))
  | .resolveType env name typeName => do
    let e ← readEnv env
    let name ← readName name
    answerValue? (← onHeap (·.resolveWhere? e name (·.typeName = typeName)))
  | .names env => do
    let e ← readEnv env
    let names ← onHeap (·.names e)
    .texts <$> names.mapM writeName
  | .size env => do
    let bindings ← onHeap (·.bindings (← readEnv env))
    pure (.size bindings.size bindings.isEmpty)
  | .clear env => do
    let e ← readEnv env
    changeHeap (·.clear e)
    pure .nothing
  | .frame env => do .frame <$> writeFrame (← readEnv env)
  -- Chains.
  | .parent env into => do
    match ← onHeap (·.parent? (← readEnv env)) with
    | some e => keepAndAnswerEnv e into
    | none => pure .nothing
  | .setParent env parent => do
    let e ← readEnv env
    let parent ← readEnv? parent
    answerEnv? (← makeOnHeap (·.replaceParent e parent))
  | .chain env => do
    let chain ← onHeap (·.chain (← readEnv env))
    .labels <$> chain.mapM labelOf
  | .hasAncestor env other => do
    let e ← readEnv env
    let f ← readEnv other
    .flag <$> onHeap (·.hasAncestor e f)
  -- Guards.
  | .swapParent env parent guard => do
    let e ← readEnv env
    let p ← readEnv parent
    let previous ← onHeap (·.parent? e)
    keepGuard (← makeOnHeap (·.swapParent e p)) guard
    answerEnv? previous
  | .swapBinding env name value guard => do
    let e ← readEnv env
    let name ← readName name
    let v ← readValue value
    keepGuard (← makeOnHeap fun h => .ok (h.swapBinding e name v)) guard
    pure .nothing
  | .release guard => .flag <$> releaseGuard guard
  -- Values and code.
  | .keep value into => do keepAndAnswer (← readValue value) into
  | .dropValue register => do
    let known ← .read (·.values.contains register)
    .update fun s => { s with values := s.values.erase register }
    pure (.flag known)
  | .valueFacts value => do return .valueFacts (← readValue value).facts
  | .valueEq a b => do
    let a ← readValue a
    let b ← readValue b
    pure (.flag (a == b))
  | .exprEq a b => do
    let a ← readExpr a
    let b ← readExpr b
    pure (.flag (a == b))
  | .exprFacts e => do
    let e ← readExpr e
    pure (.exprFacts e.isSymbolic e.isMissing)
  | .formulaFacts value => do .formulaFacts <$> writeFormulaFacts (← readFormula value)
  | .withHead value head into => do
    let f ← readFormula value
    let head ← readHead head
    keepAndAnswer (f.withHead head).toValue into
  | .listFacts value => do
    let (kind, entries) ← readList value
    .listFacts <$> writeListFacts kind entries
  | .listGet value name => do
    let (_, entries) ← readList value
    let name ← readName name
    answerValue? (entries.get? name)
  | .pronounGet value name => do
    let source ← readPronoun value
    let name ← readName name
    answerValue? (← onHeap (source.get? · name))
  | .overrideFrames value => do
    let t ← readOverride value
    let (mask, top) ← interpret t.frames
    let mask ← labelOf mask
    let top ← labelOf top
    pure (.labels [mask, top])
  | .raise e => .fail (.evaluation e)
  -- Evaluation.
  | .depth => .read fun s => .count s.state.depth
  | .limit => .read fun s => match s.mode.limit? with
    | some n => .limit n
    | none => .nothing
  | .eval e env into => do
    let e ← readExpr e
    let env ← readEnv env
    let v ← interpret (e.eval (← .read Session.mode) env)
    keepAndAnswer v into
  | .evalTilde call overscope top into => do
    let call ← readValue call
    let overscope ← readEnv overscope
    let top ← readEnv top
    let v ← interpret (call.evalTilde (← .read Session.mode) overscope top)
    keepAndAnswer v into
  | .toFormula call env into => do
    let call ← readValue call
    let env ← readEnv env
    let v ← interpret (call.toFormula (← .read Session.mode) env)
    keepAndAnswer v into
  | .evalWithData code data env into => do
    let code ← readValue code
    let data ← readValue data
    let env ← readEnv env
    let v ← interpret (Overscope.evalWithData (← .read Session.mode) code data env)
    keepAndAnswer v into
  -- Masks.
  | .maskOver bottom top parent into => do
    let bottom ← readEnv? bottom
    let top ← readEnv? top
    let parent ← readEnv parent
    keepAndAnswerEnv (← makeOnHeap (·.maskOver bottom top parent)) into
  | .maskOf data parent into => do
    let data ← readValue data
    let parent ← readEnv parent
    keepAndAnswerEnv (← makeOnHeap (·.maskOf data parent)) into
  | .quosureMask env into => do
    let env ← readEnv env
    keepAndAnswerEnv (← makeOnHeap fun h => .ok (h.addQuosureMask env)) into
  | .isMask env => do
    let e ← readEnv env
    .flag <$> onHeap (·.isMask e)
  | .stripMask env => do
    let e ← readEnv env
    changeHeap (·.stripMask e)
    pure .nothing

/-- Runs one command and lets go of what it held. -/
def Session.step (s : Session) (c : Command) : Except Failure Answer × Session :=
  let (answer, s) := runCommand c s
  (answer, { s with inHand := [] : Session }.settle)

/-- Binds variables in the global environment. All values are read before the
names, and a later value of one name replaces an earlier one. -/
def bindGlobals (globals : List (String × ValueTerm)) : SessionM Unit := do
  let values ← globals.mapM fun (_, term) => readValue term
  let names ← globals.mapM fun (text, _) => readName text
  changeHeap fun h => (names.zip values).foldl (fun h (n, v) => h.bind .global n v) h

/-- Runs a script: its variables are bound, then its commands are run one after
the other. -/
def runScript (mode : Mode) (globals : List (String × ValueTerm)) (commands : List Command) :
    Except Failure (List (Except Failure Answer)) :=
  match bindGlobals globals (.initial mode) with
  | (.error e, _) => .error e
  | (.ok (), s) => .ok (go { s with inHand := [] : Session }.settle commands)
where
  go (s : Session) : List Command → List (Except Failure Answer)
    | [] => []
    | c :: cs =>
      let (answer, s) := s.step c
      answer :: go s cs

end Overscope
