-- What stripping a data mask does to each frame, whatever the mask has gone through. Its own
-- frame loses the four names of a mask, the frames from its parent up to the top one on record
-- are emptied, and that is all.
import Overscope.Proofs.FreshMask

namespace Overscope

/-- The table with nothing under the names of a mask. -/
def Table.withoutMaskNames (t : Table Name Value) : Table Name Value := maskNames.foldl Table.erase t

namespace Table

variable {κ α : Type} [DecidableEq κ]

theorem get?_foldl_erase (ks : List κ) (t : Table κ α) (k : κ) :
    (ks.foldl erase t).get? k = if k ∈ ks then none else t.get? k := by
  induction ks generalizing t with
  | nil => rfl
  | cons j ks ih =>
    rw [List.foldl_cons, ih, get?_erase]
    by_cases hk : k ∈ ks
    · simp [hk]
    · simp [hk, eq_comm]

theorem get?_withoutMaskNames (t : Table Name Value) (n : Name) :
    t.withoutMaskNames.get? n = if n ∈ maskNames then none else t.get? n :=
  get?_foldl_erase maskNames t n

end Table

/-- A mask frame binds nothing else when it is built. -/
theorem withoutMaskNames_maskBindings (mask top scope : EnvId) :
    (maskBindings mask top scope).withoutMaskNames = .empty :=
  Table.ext rfl

namespace Heap

/-! ## The frames that are emptied -/

/-- One frame is all that lies between a frame and itself. -/
theorem dataFrames_self (h : Heap) (e : EnvId) : h.dataFrames e e = [e] := by
  obtain ⟨rest, hchain⟩ : ∃ rest, h.chain e = e :: rest := ⟨_, rfl⟩
  rw [dataFrames, if_pos (hasAncestor_self h e)]
  simp only [hchain, List.idxOf_cons_self, List.take_succ_cons, List.take_zero]

/-- The last frame to be emptied: the top frame on record, or else the parent of the mask. -/
def lastEmptied? (h : Heap) (mask : EnvId) : Option EnvId :=
  match h.local? mask .topEnv with
  | some (.env top) => some top
  | _ => h.parent? mask

/-- The frames that stripping the mask empties. -/
def emptied (h : Heap) (mask : EnvId) : List EnvId :=
  match h.parent? mask, h.lastEmptied? mask with
  | some bottom, some top => h.dataFrames bottom top
  | _, _ => []

theorem lastEmptied?_of_top {h : Heap} {mask top : EnvId}
    (ht : h.local? mask .topEnv = some (.env top)) : h.lastEmptied? mask = some top := by
  simp only [lastEmptied?, ht]

theorem lastEmptied?_of_none {h : Heap} {mask : EnvId} (ht : ∀ top, h.local? mask .topEnv ≠
    some (.env top)) : h.lastEmptied? mask = h.parent? mask := by
  unfold lastEmptied?
  split
  · next top htop => exact absurd htop (ht top)
  · rfl

theorem emptied_of_link {h : Heap} {mask bottom top : EnvId} (hp : h.Link mask bottom)
    (ht : h.lastEmptied? mask = some top) : h.emptied mask = h.dataFrames bottom top := by
  simp only [emptied, show h.parent? mask = some bottom from hp, ht]

theorem emptied_of_root {h : Heap} {mask : EnvId} (hr : h.parent? mask = none) :
    h.emptied mask = [] := by
  simp only [emptied, hr]

/-- The parent of the mask is the first frame to be emptied, or none is. -/
theorem mem_dataFrames_self_iff {h : Heap} {bottom top : EnvId} :
    bottom ∈ h.dataFrames bottom top ↔ h.hasAncestor bottom top = true := by
  obtain ⟨rest, hchain⟩ : ∃ rest, h.chain bottom = bottom :: rest := ⟨_, rfl⟩
  unfold dataFrames
  by_cases ha : h.hasAncestor bottom top
  · simp [ha, hchain]
  · simp [ha]

/-! ## Frames after stripping -/

theorem frame?_foldl_clear (es : List EnvId) (h : Heap) (f : EnvId) :
    (es.foldl clear h).frame? f =
      if f ∈ es then (h.frame? f).map fun fr => .empty fr.parent else h.frame? f := by
  induction es generalizing h with
  | nil => simp
  | cons e es ih =>
    rw [List.foldl_cons, ih, frame?_clear]
    by_cases hef : e = f
    · subst hef
      by_cases he : e ∈ es <;> rcases h.frame? e with _ | fr <;> simp [he, Frame.empty]
    · simp [hef, Ne.symm hef]

theorem stripMask_eq_foldl (h : Heap) (mask : EnvId) :
    h.stripMask mask =
      (h.emptied mask).foldl clear (maskNames.foldl (·.unbind mask ·) h) := by
  have hsame := sameLinks_foldl_unbind h mask maskNames
  have hframes : ∀ bottom top, (maskNames.foldl (·.unbind mask ·) h).dataFrames bottom top =
      h.dataFrames bottom top := fun bottom top => by
    rw [dataFrames, dataFrames, hsame.hasAncestor, hsame.chain]
  unfold stripMask emptied lastEmptied?
  simp only [hframes]
  rcases h.parent? mask with _ | bottom
  · rfl
  · rcases h.local? mask .topEnv with _ | v
    · rfl
    · cases v <;> rfl

/-- Each frame after stripping. -/
theorem frame?_stripMask (h : Heap) (mask f : EnvId) :
    (h.stripMask mask).frame? f =
      if f ∈ h.emptied mask then (h.frame? f).map fun fr => .empty fr.parent
      else if mask = f then (h.frame? f).map fun fr =>
        { fr with bindings := fr.bindings.withoutMaskNames }
      else h.frame? f := by
  rw [stripMask_eq_foldl, frame?_foldl_clear, frame?_foldl_unbind]
  by_cases hm : mask = f
  · rw [if_pos hm, if_pos hm]
    rcases h.frame? f with _ | fr <;> rfl
  · rw [if_neg hm, if_neg hm]

end Heap

end Overscope
