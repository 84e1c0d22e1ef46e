-- Scope graphs that grow. New frames go on in frames made before them and leave the
-- old ones alone, so they close no cycle; a mask is built of such frames. Links that
-- lead to frames that were made can be put anywhere among them.
import Overscope.Mask.Eval
import Overscope.Proofs.Acyclic

open Relation

namespace Overscope.Heap

/-! ## Links to frames that were made -/

/-- Every parent was made. -/
def Closed (h : Heap) : Prop := ∀ e p, h.Link e p → p.index < h.size

/-- The frames have the same parents, and the same ones are alive. -/
structure SameLinks (h h' : Heap) : Prop where
  size : h'.size = h.size
  isLive : ∀ e, h'.isLive e = h.isLive e
  parent : ∀ e, h'.parent? e = h.parent? e

theorem index_lt_of_link {h : Heap} {e p : EnvId} (hp : h.Link e p) : e.index < h.size :=
  index_lt_size (isLive_of_parent? hp)

theorem closed_iff {h : Heap} :
    h.Closed ↔ ∀ i < h.size, ∀ p ∈ h.parent? ⟨i⟩, p.index < h.size :=
  ⟨fun hc i _ p hp => hc ⟨i⟩ p hp, fun hc e p hp => hc e.index (index_lt_of_link hp) p hp⟩

instance (h : Heap) : Decidable h.Closed := decidable_of_iff' _ closed_iff

theorem closed_of_link_imp {h h' : Heap} (hsize : h.size ≤ h'.size)
    (hl : ∀ e p, h'.Link e p → h.Link e p) (hc : h.Closed) : h'.Closed :=
  fun e p hp => Nat.lt_of_lt_of_le (hc e p (hl e p hp)) hsize

theorem closed_setParent {h : Heap} (hc : h.Closed) (e : EnvId) {p : Option EnvId}
    (hp : ∀ q ∈ p, q.index < h.size) : (h.setParent e p).Closed := by
  intro a b hab
  rw [setParent, size_modify]
  rcases link_setParent_iff.1 hab with ⟨-, -, rfl⟩ | ⟨-, hold⟩
  · exact hp b rfl
  · exact hc a b hold

theorem closed_sweep {h : Heap} (hc : h.Closed) (held : List EnvId) : (h.sweep held).Closed :=
  closed_of_link_imp (Nat.le_of_eq (size_sweep h held).symm) (fun _ _ => link_of_link_sweep) hc

namespace SameLinks

theorem refl (h : Heap) : h.SameLinks h := ⟨rfl, fun _ => rfl, fun _ => rfl⟩

theorem trans {h₁ h₂ h₃ : Heap} (h : h₁.SameLinks h₂) (h' : h₂.SameLinks h₃) : h₁.SameLinks h₃ where
  size := h'.size.trans h.size
  isLive e := (h'.isLive e).trans (h.isLive e)
  parent e := (h'.parent e).trans (h.parent e)

theorem acyclic {h h' : Heap} (hsame : h.SameLinks h') (hac : h.Acyclic) : h'.Acyclic :=
  acyclic_of_link_imp (fun e _ hp => (hsame.parent e).symm.trans hp) hac

theorem closed {h h' : Heap} (hsame : h.SameLinks h') (hc : h.Closed) : h'.Closed :=
  closed_of_link_imp (Nat.le_of_eq hsame.size.symm)
    (fun e _ hp => (hsame.parent e).symm.trans hp) hc

/-- The same parents make the same chains. -/
theorem chain {h h' : Heap} (hsame : h.SameLinks h') (e : EnvId) : h'.chain e = h.chain e := by
  have hwalk : ∀ n e, h'.chainUpTo n e = h.chainUpTo n e := by
    intro n
    induction n with
    | zero => exact fun _ => rfl
    | succ n ih =>
      intro e
      rw [chainUpTo, chainUpTo, hsame.parent]
      rcases h.parent? e with _ | p
      · rfl
      · simp only [ih]
  rw [Heap.chain, Heap.chain, hsame.size, hwalk]

theorem hasAncestor {h h' : Heap} (hsame : h.SameLinks h') (e other : EnvId) :
    h'.hasAncestor e other = h.hasAncestor e other := by
  rw [Heap.hasAncestor, Heap.hasAncestor, hsame.chain]

/-- Steps that keep the links, one after the other. -/
theorem foldl {ι : Type} {step : Heap → ι → Heap} (hstep : ∀ (h : Heap) i, h.SameLinks (step h i))
    (is : List ι) (h : Heap) : h.SameLinks (is.foldl step h) := by
  induction is generalizing h with
  | nil => exact refl h
  | cons i is ih => exact (hstep h i).trans (ih (step h i))

end SameLinks

theorem sameLinks_bind (h : Heap) (e : EnvId) (name : Name) (v : Value) :
    h.SameLinks (h.bind e name v) :=
  ⟨size_modify h e _, fun f => isLive_modify h e f _, fun f => parent?_bind h e f name v⟩

theorem sameLinks_unbind (h : Heap) (e : EnvId) (name : Name) : h.SameLinks (h.unbind e name) :=
  ⟨size_modify h e _, fun f => isLive_modify h e f _, fun f => parent?_unbind h e f name⟩

theorem sameLinks_restoreBinding (h : Heap) (e : EnvId) (name : Name) (v : Option Value) :
    h.SameLinks (h.restoreBinding e name v) := by
  refine ⟨size_modify h e _, fun f => isLive_modify h e f _, fun f => ?_⟩
  rw [parent?, restoreBinding, frame?_modify, parent?]
  split
  · rcases h.frame? f with _ | _ <;> rfl
  · rfl

theorem sameLinks_clear (h : Heap) (e : EnvId) : h.SameLinks (h.clear e) :=
  ⟨size_modify h e _, fun f => isLive_modify h e f _, fun f => parent?_clear h e f⟩

theorem sameLinks_foldl_unbind (h : Heap) (e : EnvId) (names : List Name) :
    h.SameLinks (names.foldl (·.unbind e ·) h) :=
  SameLinks.foldl (fun h n => sameLinks_unbind h e n) names h

theorem sameLinks_addData (h : Heap) (entries : Entries) (parent : EnvId) :
    (h.alloc (.empty (some parent))).2.SameLinks (h.addData entries parent).2 :=
  SameLinks.foldl (fun h p => sameLinks_bind h _ p.1 p.2) entries.named _

/-- Stripping a mask removes bindings alone. -/
theorem sameLinks_stripMask (h : Heap) (mask : EnvId) : h.SameLinks (h.stripMask mask) := by
  have hnames := sameLinks_foldl_unbind h mask maskNames
  unfold stripMask
  simp only
  split
  · exact hnames.trans (SameLinks.foldl (fun h e => sameLinks_clear h e) _ _)
  · exact hnames

/-! ## Growing -/

/-- Frames were added and the old ones left alone. A new frame goes on in a frame that
was made before it. -/
structure GrowsTo (h h' : Heap) : Prop where
  size_le : h.size ≤ h'.size
  frame : ∀ e, e.index < h.size → h'.frame? e = h.frame? e
  link_lt : ∀ e p, h.size ≤ e.index → h'.Link e p → p.index < e.index

namespace GrowsTo

variable {h h' : Heap}

theorem refl (h : Heap) : h.GrowsTo h where
  size_le := Nat.le_refl _
  frame _ _ := rfl
  link_lt _ _ he hp := absurd (index_lt_of_link hp) (Nat.not_lt.2 he)

theorem alloc (hg : h.GrowsTo h') {f : Frame} (hp : ∀ p ∈ f.parent, p.index < h'.size) :
    h.GrowsTo (h'.alloc f).2 where
  size_le := by
    have := hg.size_le
    simp only [Heap.alloc, size, Array.size_push] at this ⊢
    omega
  frame e he := by
    have hne : e ≠ (h'.alloc f).1 := by
      rintro rfl
      exact absurd hg.size_le (Nat.not_le.2 he)
    rw [frame?_alloc, if_neg hne, hg.frame e he]
  link_lt e p he hl := by
    rw [Link, parent?, frame?_alloc] at hl
    split at hl
    · next heq => exact heq ▸ hp p hl
    · exact hg.link_lt e p he hl

/-- A new frame inside of one that was made. -/
theorem alloc_inside (hg : h.GrowsTo h') {f : Frame} {parent : EnvId} (hf : f.parent = some parent)
    (hp : parent.index < h'.size) : h.GrowsTo (h'.alloc f).2 := by
  apply hg.alloc
  intro p hp'
  rw [hf] at hp'
  cases hp'
  exact hp

theorem bind (hg : h.GrowsTo h') {e : EnvId} (he : h.size ≤ e.index) (name : Name) (v : Value) :
    h.GrowsTo (h'.bind e name v) where
  size_le := by rw [Heap.bind, size_modify]; exact hg.size_le
  frame f hf := by
    have hne : e ≠ f := by
      rintro rfl
      omega
    rw [Heap.bind, frame?_modify, if_neg hne, hg.frame f hf]
  link_lt f p hf hl := hg.link_lt f p hf ((parent?_bind h' e f name v).symm.trans hl)

theorem link_of_lt (hg : h.GrowsTo h') {e p : EnvId} (he : e.index < h.size)
    (hp : h'.Link e p) : h.Link e p := by
  rw [Link, parent?, ← hg.frame e he]
  exact hp

theorem closed (hg : h.GrowsTo h') (hc : h.Closed) : h'.Closed := by
  intro e p hp
  have he' := index_lt_of_link hp
  rcases Nat.lt_or_ge e.index h.size with he | he
  · exact Nat.lt_of_lt_of_le (hc e p (hg.link_of_lt he hp)) hg.size_le
  · exact Nat.lt_trans (hg.link_lt e p he hp) he'

/-- Bindings of a new frame, one after the other. -/
theorem foldl_bind (hg : h.GrowsTo h') {e : EnvId} (he : h.size ≤ e.index)
    (ps : List (Name × Value)) :
    h.GrowsTo (ps.foldl (fun h (name, v) => h.bind e name v) h') := by
  induction ps generalizing h' with
  | nil => exact hg
  | cons p ps ih => exact ih (hg.bind he p.1 p.2)

/-- From an old frame the links lead to old frames alone. -/
theorem transGen_of_lt (hg : h.GrowsTo h') (hc : h.Closed) {e x : EnvId} (he : e.index < h.size)
    (hex : TransGen h'.Link e x) : TransGen h.Link e x := by
  induction hex using TransGen.head_induction_on with
  | single hlast => exact TransGen.single (hg.link_of_lt he hlast)
  | head hfirst _ ih =>
    have hlink := hg.link_of_lt he hfirst
    exact TransGen.head hlink (ih (hc _ _ hlink))

/-- From a new frame the links lead to frames made before it alone. -/
theorem lt_of_transGen (hg : h.GrowsTo h') (hc : h.Closed) {e x : EnvId} (he : h.size ≤ e.index)
    (hex : TransGen h'.Link e x) : x.index < e.index := by
  induction hex with
  | single hlast => exact hg.link_lt e _ he hlast
  | @tail y z _ hyz ih =>
    rcases Nat.lt_or_ge y.index h.size with hy | hy
    · exact Nat.lt_of_lt_of_le (hc y z (hg.link_of_lt hy hyz)) he
    · exact Nat.lt_trans (hg.link_lt y z hy hyz) ih

theorem acyclic (hg : h.GrowsTo h') (hc : h.Closed) (hac : h.Acyclic) : h'.Acyclic := by
  intro e hcyc
  -- A cycle would stay among the old frames, or the indices would fall around it.
  rcases Nat.lt_or_ge e.index h.size with he | he
  · exact hac e (hg.transGen_of_lt hc he hcyc)
  · exact absurd (hg.lt_of_transGen hc he hcyc) (Nat.lt_irrefl _)

theorem isLive (hg : h.GrowsTo h') {e : EnvId} (hl : h.isLive e) : h'.isLive e := by
  rw [Heap.isLive, hg.frame e (index_lt_size hl)]
  exact hl

/-- What the old frames hold, they still hold. -/
theorem mem_handles (hg : h.GrowsTo h') {x : EnvId} (hx : x ∈ h.handles) : x ∈ h'.handles := by
  obtain ⟨e, f, hf, hxf⟩ := mem_handles_iff.1 hx
  have he : e.index < h.size := index_lt_size (by rw [Heap.isLive, hf]; rfl)
  exact mem_handles_iff.2 ⟨e, f, (hg.frame e he).trans hf, hxf⟩

end GrowsTo

/-! ## Masks -/

/-- The new frames are a mask and the frame that it goes on in. -/
structure GrowsByMask (h h' : Heap) (mask : EnvId) : Prop where
  grows : h.GrowsTo h'
  new : ∀ x, h.size ≤ x.index → h'.isLive x → x = mask ∨ h'.Link mask x

/-- While the mask is held every live frame has a holder. -/
theorem GrowsByMask.settled {h h' : Heap} {mask : EnvId} (hm : h.GrowsByMask h' mask)
    {held : List EnvId} (hs : h.Settled held) : h'.Settled (mask :: held) := by
  rw [settled_iff] at hs ⊢
  intro x hx
  rcases Nat.lt_or_ge x.index h.size with hold | hnew
  · have hlive : h.isLive x := by
      rw [isLive, ← hm.grows.frame x hold]
      exact hx
    rcases hs x hlive with hin | hin
    · exact Or.inl (hm.grows.mem_handles hin)
    · exact Or.inr (List.mem_cons_of_mem mask hin)
  · rcases hm.new x hnew hx with rfl | hlink
    · exact Or.inr (List.mem_cons_self ..)
    · exact Or.inl (mem_handles_of_link hlink)

theorem size_alloc (h : Heap) (f : Frame) : (h.alloc f).2.size = h.size + 1 := by
  simp [alloc, size]

theorem frame?_alloc_self (h : Heap) (f : Frame) :
    (h.alloc f).2.frame? (h.alloc f).1 = some f := by
  rw [frame?_alloc]
  exact if_pos rfl

/-- A mask over a frame that was made. -/
theorem GrowsTo.addMask {h h₁ : Heap} (hg : h.GrowsTo h₁) {bottom : EnvId}
    (hbottom : bottom.index < h₁.size) (top parent : EnvId) :
    h.GrowsTo (h₁.addMask bottom top parent).2 := by
  have hmask : h.size ≤ (⟨h₁.size⟩ : EnvId).index := hg.size_le
  have hframe := (hg.alloc_inside (f := .empty (some bottom)) rfl hbottom).bind hmask .tilde
    (.override ⟨⟨h₁.size⟩, top⟩)
  exact ((hframe.bind hmask .maskFlag (.bool true)).bind hmask .env (.env parent)).bind
    hmask .topEnv (.env top)

/-- A mask over one new frame `bottom`. -/
theorem growsByMask_addMask {h h₁ : Heap} (hg : h.GrowsTo h₁) (hsize : h₁.size = h.size + 1)
    (top parent : EnvId) :
    h.GrowsByMask (h₁.addMask ⟨h.size⟩ top parent).2 (h₁.addMask ⟨h.size⟩ top parent).1 := by
  have hbottom : (⟨h.size⟩ : EnvId).index < h₁.size := by
    show h.size < h₁.size
    omega
  have hgrows := hg.addMask hbottom top parent
  refine ⟨hgrows, fun x hnew hlive => ?_⟩
  have hlt : x.index < h.size + 2 := by
    have := index_lt_size hlive
    simp only [addMask, bind, size_modify, size_alloc] at this
    omega
  rcases Nat.lt_or_ge x.index h₁.size with hx | hx
  · right
    have heq : x = ⟨h.size⟩ := by
      cases x
      simp only [EnvId.mk.injEq] at *
      omega
    show Heap.parent? _ _ = some x
    simp only [addMask, parent?_bind]
    rw [heq, parent?, frame?_alloc_self]
    rfl
  · left
    cases x
    simp only [addMask, alloc, EnvId.mk.injEq] at *
    omega

/-- The mask of an overscope without data. -/
theorem growsByMask_addQuosureMask {h : Heap} {env : EnvId} (he : env.index < h.size) :
    h.GrowsByMask (h.addQuosureMask env).2 (h.addQuosureMask env).1 := by
  have hmask : h.size ≤ (⟨h.size⟩ : EnvId).index := Nat.le_refl _
  have hframe := ((GrowsTo.refl h).alloc_inside (f := .empty (some env)) rfl he).bind hmask .tilde
    (.override ⟨⟨h.size⟩, ⟨h.size⟩⟩)
  refine ⟨hframe.bind hmask .env (.env env), fun x hnew hlive => Or.inl ?_⟩
  have hlt : x.index < h.size + 1 := by
    have := index_lt_size hlive
    simp only [addQuosureMask, bind, size_modify, size_alloc] at this
    exact this
  cases x
  simp only [addQuosureMask, alloc, EnvId.mk.injEq] at *
  omega

/-- A mask that was built over the one new frame. -/
theorem growsByMask_maskOver {h h₁ h' : Heap} {mask parent : EnvId} (hg : h.GrowsTo h₁)
    (hsize : h₁.size = h.size + 1)
    (hm : h₁.maskOver (some ⟨h.size⟩) (some ⟨h.size⟩) parent = .ok (mask, h')) :
    h.GrowsByMask h' mask := by
  unfold maskOver at hm
  simp only [Option.getD_some, hasAncestor_self, if_true, Except.ok.injEq] at hm
  have hbuilt := growsByMask_addMask hg hsize ⟨h.size⟩ parent
  rw [hm] at hbuilt
  exact hbuilt

/-- One new frame with the bindings of a list. -/
theorem growsTo_addData (h : Heap) (entries : Entries) {parent : EnvId}
    (hp : parent.index < h.size) :
    h.GrowsTo (h.addData entries parent).2 ∧ (h.addData entries parent).2.size = h.size + 1 := by
  have hframe := (GrowsTo.refl h).alloc_inside (f := .empty (some parent)) rfl hp
  refine ⟨hframe.foldl_bind (Nat.le_refl _) entries.named, ?_⟩
  rw [(sameLinks_addData h entries parent).size, size_alloc]

/-- The mask of any data. -/
theorem growsByMask_maskOf {h h' : Heap} {data : Value} {parent mask : EnvId}
    (hp : parent.index < h.size) (hm : h.maskOf data parent = .ok (mask, h')) :
    h.GrowsByMask h' mask := by
  have hnew : h.size ≤ (⟨h.size⟩ : EnvId).index := Nat.le_refl _
  cases data with
  | null =>
    have hframe := (GrowsTo.refl h).alloc_inside (f := .empty (some parent)) rfl hp
    exact growsByMask_maskOver hframe (size_alloc h _) hm
  | env e =>
    have hframe := (GrowsTo.refl h).alloc_inside (f := ⟨h.bindings e, some parent⟩) rfl hp
    refine growsByMask_maskOver (hframe.bind hnew .data (.pronoun (.env e) absenceInEnv)) ?_ hm
    rw [bind, size_modify, size_alloc]
  | list kind entries =>
    simp only [maskOf] at hm
    split at hm
    · cases hm
    · obtain ⟨hgrows, hsize⟩ := growsTo_addData h entries hp
      refine growsByMask_maskOver
        (hgrows.bind hnew .data (.pronoun (.list kind entries) kind.absence)) ?_ hm
      rw [bind, size_modify, hsize]
  | _ => cases hm

end Overscope.Heap
