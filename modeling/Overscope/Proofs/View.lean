-- Scope graphs as they are looked at: who is alive, who is whose parent, and what
-- each frame binds. A view is never written. Where the evaluator changes the graph
-- for a while, a view is replaced by another one.
import Overscope.Eval.Call
import Overscope.Proofs.Acyclic

namespace Overscope

/-- A look at a scope graph. -/
@[ext]
structure View where
  /-- The number of live frames, which no walk without a cycle exceeds by more than
  one. -/
  size : Nat
  isLive : EnvId → Bool
  parent? : EnvId → Option EnvId
  local? : EnvId → Name → Option Value

namespace View

/-! ## Looking up -/

/-- At most `n` frames of the chain from `e`, innermost first. -/
def chainUpTo (v : View) : Nat → EnvId → List EnvId
  | 0, _ => []
  | n + 1, e => e :: ((v.parent? e).map (v.chainUpTo n)).getD []

/-- The frame and its ancestors, innermost first. -/
def chain (v : View) (e : EnvId) : List EnvId := v.chainUpTo (v.size + 1) e

/-- Whether `other` is the frame itself or one of its ancestors. -/
def hasAncestor (v : View) (e other : EnvId) : Bool := (v.chain e).contains other

/-- The first binding on the chain that is accepted. -/
def resolveWhere? (v : View) (e : EnvId) (name : Name) (accept : Value → Bool) : Option Value :=
  (v.chain e).findSome? fun f => (v.local? f name).filter accept

def resolve? (v : View) (e : EnvId) (name : Name) : Option Value :=
  v.resolveWhere? e name fun _ => true

def isMask (v : View) (e : EnvId) : Bool := (v.local? e .maskFlag).isSome

/-! ## Other views -/

/-- The view in which a live frame has another parent. -/
def setParent (v : View) (e p : EnvId) : View :=
  { v with parent? := fun f => if e = f ∧ v.isLive f then some p else v.parent? f }

/-- The view in which a live frame binds a name to another value. -/
def bind (v : View) (e : EnvId) (name : Name) (w : Value) : View :=
  { v with local? := fun f n => if e = f ∧ v.isLive f ∧ name = n then some w else v.local? f n }

/-- The view in which an overscope goes on, above its top frame, in the scope
`target`. In a data mask `.env` is that scope too. -/
def splice (v : View) (overscope top target : EnvId) : View :=
  (if v.isMask overscope then v.bind overscope .env (.env target) else v).setParent top target

/-! ### A view under a splice -/

@[simp]
theorem size_splice (v : View) (overscope top target : EnvId) :
    (v.splice overscope top target).size = v.size := by
  unfold splice
  split <;> rfl

@[simp]
theorem isLive_splice (v : View) (overscope top target e : EnvId) :
    (v.splice overscope top target).isLive e = v.isLive e := by
  unfold splice
  split <;> rfl

theorem parent?_splice (v : View) (overscope top target e : EnvId) :
    (v.splice overscope top target).parent? e =
      if top = e ∧ v.isLive e then some target else v.parent? e := by
  unfold splice
  split <;> rfl

theorem local?_splice (v : View) (overscope top target e : EnvId) (name : Name) :
    (v.splice overscope top target).local? e name =
      if v.isMask overscope ∧ overscope = e ∧ v.isLive e ∧ .env = name then some (.env target)
      else v.local? e name := by
  unfold splice
  split
  · next hm => simp only [hm, true_and]; rfl
  · next hm => simp only [hm, false_and, if_false, Bool.false_eq_true]; rfl

/-! ## Walks in two views -/

theorem chainUpTo_congr {v w : View} (hp : ∀ f, v.parent? f = w.parent? f) (n : Nat) (e : EnvId) :
    v.chainUpTo n e = w.chainUpTo n e := by
  induction n generalizing e with
  | zero => rfl
  | succ n ih => rw [chainUpTo, chainUpTo, hp, funext ih]

theorem chain_bind (v : View) (e f : EnvId) (name : Name) (w : Value) :
    (v.bind e name w).chain f = v.chain f :=
  chainUpTo_congr (v := v.bind e name w) (w := v) (fun _ => rfl) _ f

theorem hasAncestor_bind (v : View) (e f other : EnvId) (name : Name) (w : Value) :
    (v.bind e name w).hasAncestor f other = v.hasAncestor f other := by
  rw [hasAncestor, chain_bind, hasAncestor]

/-- Whether a walk meets a frame does not depend on the parent of that frame. -/
theorem mem_chainUpTo_congr {v w : View} {top : EnvId}
    (hp : ∀ f, f ≠ top → v.parent? f = w.parent? f) (n : Nat) (e : EnvId) :
    top ∈ v.chainUpTo n e ↔ top ∈ w.chainUpTo n e := by
  induction n generalizing e with
  | zero => rfl
  | succ n ih =>
    by_cases he : e = top
    · simp [chainUpTo, he]
    · rw [chainUpTo, chainUpTo, hp e he, List.mem_cons, List.mem_cons]
      rcases w.parent? e with _ | p
      · rfl
      · simp only [Option.map_some, Option.getD_some, ih p]

end View

/-! ## The view of a scope graph -/

namespace Heap

/-- How a scope graph looks. -/
def view (h : Heap) : View := ⟨h.liveFrames.length, h.isLive, h.parent?, h.local?⟩

theorem chainUpTo_view (h : Heap) (n : Nat) (e : EnvId) :
    h.view.chainUpTo n e = h.chainUpTo n e := by
  induction n generalizing e with
  | zero => rfl
  | succ n ih =>
    rw [View.chainUpTo, chainUpTo, funext ih]
    show e :: ((h.parent? e).map (h.chainUpTo n)).getD [] = _
    rcases h.parent? e with _ | p <;> rfl

/-- Without a cycle the walks are those of the scope graph. -/
theorem chain_view {h : Heap} (hac : h.Acyclic) (e : EnvId) : h.view.chain e = h.chain e := by
  rw [View.chain, chainUpTo_view]
  exact chainUpTo_eq_chain hac (Nat.le_refl _) e

theorem hasAncestor_view {h : Heap} (hac : h.Acyclic) (e other : EnvId) :
    h.view.hasAncestor e other = h.hasAncestor e other := by
  rw [View.hasAncestor, chain_view hac, hasAncestor]

theorem resolveWhere?_view {h : Heap} (hac : h.Acyclic) (e : EnvId) (name : Name)
    (accept : Value → Bool) :
    h.view.resolveWhere? e name accept = h.resolveWhere? e name accept := by
  rw [View.resolveWhere?, chain_view hac, resolveWhere?]
  rfl

theorem resolve?_view {h : Heap} (hac : h.Acyclic) (e : EnvId) (name : Name) :
    h.view.resolve? e name = h.resolve? e name := by
  rw [View.resolve?, resolveWhere?_view hac, resolveWhere?, resolve?]
  congr 1
  funext f
  rcases h.local? f name with _ | v <;> rfl

theorem isMask_view (h : Heap) (e : EnvId) : h.view.isMask e = h.isMask e := rfl

theorem liveFrames_modify (h : Heap) (e : EnvId) (change : Frame → Frame) :
    (h.modify e change).liveFrames = h.liveFrames :=
  liveFrames_congr fun f => isLive_modify h e f change

theorem view_setParent (h : Heap) (e p : EnvId) :
    (h.setParent e (some p)).view = h.view.setParent e p := by
  apply View.ext
  · exact congrArg List.length (liveFrames_modify h e _)
  · exact funext fun f => isLive_modify h e f _
  · funext f
    show (h.setParent e (some p)).parent? f = if e = f ∧ h.isLive f then some p else h.parent? f
    rw [parent?_setParent]
    by_cases hef : e = f
    · by_cases hl : h.isLive f
      · simp [hef, hl]
      · simp [hef, hl, parent?_of_not_isLive hl]
    · simp [hef]
  · funext f n
    exact local?_setParent h e f (some p) n

theorem view_bind (h : Heap) (e : EnvId) (name : Name) (v : Value) :
    (h.bind e name v).view = h.view.bind e name v := by
  apply View.ext
  · exact congrArg List.length (liveFrames_modify h e _)
  · exact funext fun f => isLive_modify h e f _
  · exact funext fun f => parent?_bind h e f name v
  · exact funext fun f => funext fun n => local?_bind h e f name n v

end Heap

end Overscope
