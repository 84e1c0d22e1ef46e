-- Scope chains: a frame, its parent, the parent's parent and so on. A name is
-- resolved at the first frame of the chain that binds it.
import Overscope.Scope.Heap

namespace Overscope.Heap

/-- At most `n` frames of the chain from `e`, innermost first. -/
def chainUpTo (h : Heap) : Nat → EnvId → List EnvId
  | 0, _ => []
  | n + 1, e => e :: match h.parent? e with
    | some p => h.chainUpTo n p
    | none => []

/-- The frame and its ancestors, innermost first. A chain without a cycle has at
most one frame more than the heap, and the walk stops there. -/
def chain (h : Heap) (e : EnvId) : List EnvId := h.chainUpTo (h.size + 1) e

/-- Whether `other` is the frame itself or one of its ancestors. -/
def hasAncestor (h : Heap) (e other : EnvId) : Bool := (h.chain e).contains other

/-- What the name means at a frame: its first binding on the chain. -/
def resolve? (h : Heap) (e : EnvId) (name : Name) : Option Value :=
  (h.chain e).findSome? (h.local? · name)

/-- The first binding on the chain that is accepted. One that is not accepted
does not hide a binding further out. -/
def resolveWhere? (h : Heap) (e : EnvId) (name : Name) (accept : Value → Bool) : Option Value :=
  (h.chain e).findSome? fun f => (h.local? f name).filter accept

theorem hasAncestor_iff {h : Heap} {e other : EnvId} :
    h.hasAncestor e other = true ↔ other ∈ h.chain e := by
  simp [hasAncestor]

/-- A frame is the first of its own chain. -/
theorem head?_chain (h : Heap) (e : EnvId) : (h.chain e).head? = some e := rfl

/-- A frame counts among its ancestors. -/
theorem hasAncestor_self (h : Heap) (e : EnvId) : h.hasAncestor e e = true :=
  hasAncestor_iff.2 (List.mem_of_head? (h.head?_chain e))

end Overscope.Heap
