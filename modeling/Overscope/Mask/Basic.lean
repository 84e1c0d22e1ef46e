-- Masks: chains of frames between an evaluation and the environment of its
-- caller. The mask frame overrides `~`, the frames below it up to the top one hold
-- the data, and above the top one comes the scope in force:
--
--   mask -> bottom -> ... -> top -> scope
import Overscope.Code.Entries
import Overscope.Eval.Call

namespace Overscope

/-! ## Building -/

/-- Adds a mask frame inside `bottom`. -/
def Heap.addMask (h : Heap) (bottom top parent : EnvId) : EnvId × Heap :=
  let (mask, h) := h.alloc (.empty (some bottom))
  let h := h.bind mask .tilde (.override ⟨mask, top⟩)
  let h := h.bind mask .maskFlag (.bool true)
  let h := h.bind mask .env (.env parent)
  (mask, h.bind mask .topEnv (.env top))

/-- Builds a data mask over the frames from `bottom` to `top`. Without a bottom
there is an empty frame inside `parent`, and without a top the bottom is the top.
The top has to be on the chain of the bottom. -/
def Heap.maskOver (h : Heap) (bottom top : Option EnvId) (parent : EnvId) :
    Except EvalError (EnvId × Heap) :=
  let (bottom, h) := match bottom with
    | some e => (e, h)
    | none => h.alloc (.empty (some parent))
  let top := top.getD bottom
  if h.hasAncestor bottom top then .ok (h.addMask bottom top parent)
  else .error (.invalidDataMask .topOffChain)

/-- Adds an override of `~` without data: a frame inside `env` that is its own
top frame. -/
def Heap.addQuosureMask (h : Heap) (env : EnvId) : EnvId × Heap :=
  let (mask, h) := h.alloc (.empty (some env))
  let h := h.bind mask .tilde (.override ⟨mask, mask⟩)
  (mask, h.bind mask .env (.env env))

/-! ## Data -/

/-- What keeps a list from being data. An empty list is no trouble. -/
def Entries.defect? (entries : Entries) : Option MaskDefect :=
  if entries.toList.isEmpty then none
  else if !entries.hasNames then some .unnamed
  else if entries.firstDuplicate?.isSome then some .duplicated
  else none

/-- The wording for a name that a list does not have. -/
def ListKind.absence : ListKind → String
  | .plain => "Object `%s` not found in data"
  | .dataFrame => "Column `%s` not found in data"

/-- The wording for a name that an environment does not bind. -/
def absenceInEnv : String := "Object `%s` not found in environment"

/-- Adds a frame that binds the usable names of a list. -/
def Heap.addData (h : Heap) (entries : Entries) (parent : EnvId) : EnvId × Heap :=
  let (bottom, h) := h.alloc (.empty (some parent))
  (bottom, entries.named.foldl (fun h (name, v) => h.bind bottom name v) h)

/-- Builds a data mask whose one frame of data is `bottom`, with the pronoun that
reads the data. -/
def Heap.maskWithPronoun (h : Heap) (bottom : EnvId) (source : DataSource) (absence : String)
    (parent : EnvId) : Except EvalError (EnvId × Heap) :=
  (h.bind bottom .data (.pronoun source absence)).maskOver (some bottom) (some bottom) parent

/-- Builds a data mask from data: null, an environment whose bindings are copied,
or a list whose usable names are unique. -/
def Heap.maskOf (h : Heap) (data : Value) (parent : EnvId) : Except EvalError (EnvId × Heap) :=
  match data with
  | .null => h.maskOver none none parent
  | .env e =>
    let (bottom, h) := h.copyFrame e (some parent)
    h.maskWithPronoun bottom (.env e) absenceInEnv parent
  | .list kind entries => match entries.defect? with
    | some defect => .error (.invalidDataMask defect)
    | none =>
      let (bottom, h) := h.addData entries parent
      h.maskWithPronoun bottom (.list kind entries) kind.absence parent
  | v => .error (.invalidDataMask (.unsupported v.typeName))

/-! ## Stripping -/

/-- The names that a data mask binds in its own frame. -/
def maskNames : List Name := [.maskFlag, .tilde, .topEnv, .env]

/-- The frames from `bottom` to `top`, if the top is on that chain. -/
def Heap.dataFrames (h : Heap) (bottom top : EnvId) : List EnvId :=
  if h.hasAncestor bottom top then
    let chain := h.chain bottom
    chain.take (chain.idxOf top + 1)
  else []

/-- Strips a data mask: its frame loses the four names of a mask, and the frames
of data up to the top one lose all bindings. Without a top frame on record that
is the parent of the mask frame alone. -/
def Heap.stripMask (h : Heap) (mask : EnvId) : Heap :=
  let bottom := h.parent? mask
  let top := match h.local? mask .topEnv with
    | some (.env top) => some top
    | _ => bottom
  let h := maskNames.foldl (·.unbind mask ·) h
  match bottom, top with
  | some bottom, some top => (h.dataFrames bottom top).foldl Heap.clear h
  | _, _ => h

end Overscope
