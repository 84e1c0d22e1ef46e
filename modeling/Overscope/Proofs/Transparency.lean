-- A quosure without a scope of its own does nothing in a data mask but evaluate its
-- right-hand side: the scope that it splices in is the one in force. It finds that scope where
-- the slots of the mask agree.
import Overscope.Proofs.Isolation
import Overscope.Proofs.Tracking

namespace Overscope

variable {mask top : EnvId}

/-! ## Splicing in the scope in force -/

/-- To splice in the scope in force is no change. -/
theorem View.splice_self {v : View} {scope : EnvId}
    (henv : v.local? mask .env = some (.env scope)) (hparent : v.parent? top = some scope) :
    v.splice mask top scope = v := by
  apply View.ext
  · exact View.size_splice ..
  · funext e
    exact View.isLive_splice ..
  · funext e
    rw [View.parent?_splice]
    split
    · next hc => rw [← hc.1, hparent]
    · rfl
  · funext e name
    rw [View.local?_splice]
    split
    · next hc => rw [← hc.2.1, ← hc.2.2.2, henv]
    · rfl

/-- Where the scope in force can be spliced in again, a quosure without a scope evaluates its
right-hand side. -/
theorem evalTildeIn_quosure_none {v : View} {scope : EnvId} (hchain : v.hasAncestor mask top)
    (henv : v.local? mask .env = some (.env scope)) (hparent : v.parent? top = some scope)
    (hoff : v.hasAncestor scope top = false) (rhs : Expr) :
    (Formula.quosure rhs none).toValue.evalTildeIn v none mask top = rhs.evalIn v none mask := by
  have hself := View.splice_self henv hparent
  show ViewSite.quosureIn ⟨.symbol .tilde, [⟨rhs, rhs.evalIn⟩], some (.quosure rhs none)⟩ none v
    none mask top = _
  unfold ViewSite.quosureIn
  simp only [List.getLast?_singleton]
  split
  · next hmissing =>
    cases rhs with
    | missing => rfl
    | _ => cases hmissing
  split
  · rfl
  simp only [hchain, targetIn, henv, pure_bind, hoff, hself, Bool.not_true, Bool.false_eq_true,
    if_false]

/-- An inlined quosure without a scope of its own gives what its right-hand side gives, whatever
that is, and leaves the same state. -/
def State.Transparent (mask : EnvId) (s : State) : Prop :=
  ∀ rhs : Expr, (Expr.const (Formula.quosure rhs none).toValue).eval .unlimited mask s =
    rhs.eval .unlimited mask s

namespace State.Tuned

variable {s : State}

/-- The view of a mask whose slots agree is intact. -/
theorem intact (hs : s.Tuned mask top) : s.heap.view.Intact mask top where
  tilde := hs.heap.override
  isLive := ⟨hs.heap.isLive_mask, hs.heap.isLive_top⟩
  onChain := by
    rw [Heap.hasAncestor_view hs.sound.acyclic, Heap.hasAncestor_iff_reflTransGen hs.sound.acyclic]
    exact .single hs.heap.link

theorem transparent (hs : s.Tuned mask top) : s.Transparent mask := by
  intro rhs
  obtain ⟨scope, hp⟩ := hs.heap.tracks
  have hac := hs.sound.acyclic
  have hoff : s.heap.view.hasAncestor scope top = false := by
    rw [Heap.hasAncestor_view hac, Bool.eq_false_iff, ne_eq, Heap.hasAncestor_iff_reflTransGen hac]
    intro hback
    exact hac top (.head' hp.link hback)
  rw [Expr.eval_eq_onMemo hs.sound, Expr.eval_eq_onMemo hs.sound]
  have hquosure : (Expr.const (Formula.quosure rhs none).toValue).evalIn s.heap.view none mask =
      rhs.evalIn s.heap.view none mask := by
    show (Formula.quosure rhs none).toValue.evalInlinedIn s.heap.view none mask = _
    rw [← evalTildeIn_quosure_none hs.intact.onChain hp.env hp.link hoff]
    exact evalInlinedIn_quosure hs.intact.toAnswers (.cons rhs .nil) none
  show s.onMemo (Expr.evalIn _ _ none mask) = s.onMemo (Expr.evalIn _ _ none mask)
  rw [hquosure]

end State.Tuned

end Overscope
