-- The life of frames. A frame lives while something holds it: a live frame, or
-- one of the holders outside the scope graph. When the last holder lets go the
-- frame dies, and so may those that it held. Frames that hold each other in a
-- cycle never die.
import Overscope.Code.Handles
import Overscope.Scope.Heap

namespace Overscope

/-- The environments that a live frame holds: its parent, and all that its
bindings hold. -/
def Frame.handles (f : Frame) : List EnvId :=
  f.parent.toList ++ f.bindings.values.flatMap Value.handles

namespace Heap

/-- The environments held from within the scope graph. -/
def handles (h : Heap) : List EnvId :=
  h.frames.toList.flatMap fun f => (f.map Frame.handles).getD []

/-- Marks the places of the given environments. -/
def marks (h : Heap) (es : List EnvId) : Array Bool :=
  es.foldl (fun marks e => marks.setIfInBounds e.index true) (Array.replicate h.size false)

/-- The live frames that neither the scope graph nor `held` holds. -/
def unheld (h : Heap) (held : List EnvId) : List EnvId :=
  let marks := h.marks (h.handles ++ held)
  ((List.range h.size).map EnvId.mk).filter fun e =>
    h.isLive e && !(marks[e.index]?.getD false)

theorem getElem?_foldl_mark (es : List EnvId) (marks : Array Bool) (i : Nat) :
    (es.foldl (fun marks e => marks.setIfInBounds e.index true) marks)[i]? =
      if (⟨i⟩ : EnvId) ∈ es then marks[i]?.map fun _ => true else marks[i]? := by
  induction es generalizing marks with
  | nil => simp
  | cons e es ih =>
    obtain ⟨j⟩ := e
    rw [List.foldl_cons, ih]
    simp only [Array.getElem?_setIfInBounds, List.mem_cons, EnvId.mk.injEq]
    by_cases hij : i = j
    · subst hij
      by_cases hi : i < marks.size <;> simp [hi]
    · simp [hij, Ne.symm hij]

theorem marked_iff {h : Heap} {es : List EnvId} {e : EnvId} (he : e.index < h.size) :
    (h.marks es)[e.index]?.getD false = true ↔ e ∈ es := by
  obtain ⟨i⟩ := e
  rw [marks, getElem?_foldl_mark]
  simp only [Array.getElem?_replicate, he, if_true]
  split <;> simp [*]

theorem index_lt_size {h : Heap} {e : EnvId} (he : h.isLive e) : e.index < h.size := by
  rcases Nat.lt_or_ge e.index h.size with hlt | hge
  · exact hlt
  · simp [isLive, frame?, Array.getElem?_eq_none hge] at he

/-- A frame is unheld when it is alive and neither the scope graph nor a holder
outside of it holds it. -/
theorem mem_unheld_iff {h : Heap} {held : List EnvId} {e : EnvId} :
    e ∈ h.unheld held ↔ h.isLive e ∧ e ∉ h.handles ∧ e ∉ held := by
  simp only [unheld, List.mem_filter, List.mem_map, List.mem_range, Bool.and_eq_true,
    Bool.not_eq_true']
  constructor
  · rintro ⟨⟨i, hi, rfl⟩, hl, hm⟩
    have hn : ¬ (⟨i⟩ : EnvId) ∈ h.handles ++ held := fun hin => by
      rw [(marked_iff hi).2 hin] at hm
      exact absurd hm (by decide)
    simp only [List.mem_append, not_or] at hn
    exact ⟨hl, hn⟩
  · rintro ⟨hl, hn⟩
    have hi := index_lt_size hl
    refine ⟨⟨e.index, hi, rfl⟩, hl, Bool.eq_false_iff.2 fun hm => ?_⟩
    rcases List.mem_append.1 ((marked_iff hi).1 hm) with hin | hin
    · exact hn.1 hin
    · exact hn.2 hin

/-- Ends the life of a frame. -/
def kill (h : Heap) (e : EnvId) : Heap := ⟨h.frames.setIfInBounds e.index none⟩

/-- Lets die what nothing holds, in at most `n` rounds. -/
def sweepUpTo (held : List EnvId) : Nat → Heap → Heap
  | 0, h => h
  | n + 1, h => match h.unheld held with
    | [] => h
    | dead => sweepUpTo held n (dead.foldl kill h)

/-- Lets die what nothing holds, then what only the dead held, and so on. Each
round but the last ends a life, so there is no need for more rounds than there
are frames. -/
def sweep (h : Heap) (held : List EnvId) : Heap := sweepUpTo held h.size h

/-- Every live frame has a holder. -/
def Settled (h : Heap) (held : List EnvId) : Prop := h.unheld held = []

theorem settled_iff {h : Heap} {held : List EnvId} :
    h.Settled held ↔ ∀ e, h.isLive e → e ∈ h.handles ∨ e ∈ held := by
  unfold Settled
  rw [List.eq_nil_iff_forall_not_mem]
  refine forall_congr' fun e => ?_
  rw [mem_unheld_iff, not_and, ← not_or, Classical.not_not]

/-- Where every live frame has a holder, nothing dies. -/
theorem sweep_of_settled {h : Heap} {held : List EnvId} (hs : h.Settled held) :
    h.sweep held = h := by
  unfold sweep
  cases h.size with
  | zero => rfl
  | succ n =>
    unfold Settled at hs
    simp [sweepUpTo, hs]

end Heap

end Overscope
