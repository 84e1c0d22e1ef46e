-- A data mask keeps the scope in force twice: as its `.env`, and in the parent slot of its
-- top frame. Splicing a scope in writes both, pointing the mask writes both, and nothing is
-- evaluated between the two writes. So the slots agree wherever an evaluation is started, as
-- long as no other override and no other mask has the frames of this one.
import Overscope.Proofs.MaskReuse
import Overscope.Proofs.Preservation

namespace Overscope

/-! ## Overrides beside a mask -/

/-- An override that has the frames of the mask is that of the mask. -/
def Override.Fits (mask top : EnvId) (o : Override) : Prop :=
  o.mask = mask ∨ o.top = mask ∨ o.top = top → o = ⟨mask, top⟩

theorem fits_self (mask top : EnvId) : Override.Fits mask top ⟨mask, top⟩ := fun _ => rfl

/-- An override of another top frame has another mask. -/
theorem Override.Fits.apart {mask top overscope t : EnvId}
    (hfit : Override.Fits mask top ⟨overscope, t⟩) (hne : t ≠ top) :
    overscope ≠ mask ∧ t ≠ mask := by
  constructor
  · intro h
    exact hne (Override.mk.inj (hfit (Or.inl h))).2
  · intro h
    exact hne (Override.mk.inj (hfit (Or.inr (Or.inl h)))).2

namespace Heap

/-! ## The two slots -/

/-- The mask, with the given top frame, has in its `.env` the very frame that is the parent
of the top frame. -/
def Tracks (h : Heap) (mask top : EnvId) : Prop := ∃ scope, h.PointsTo mask top scope

/-- A mask whose slots agree, and that its own override alone can rewire. -/
structure Tuned (h : Heap) (mask top : EnvId) : Prop where
  tracks : h.Tracks mask top
  override : h.local? mask .tilde = some (.override ⟨mask, top⟩)
  link : h.Link mask top
  alone : ∀ e name o, h.local? e name = some (.override o) → o.Fits mask top

/-- Writing `.env` before the parent link is no different from writing it after. -/
theorem setParent_bind (h : Heap) (mask top scope : EnvId) :
    (h.bind mask .env (.env scope)).setParent top (some scope) = h.pointAt mask top scope := by
  refine ext_frame? ?_ fun f => ?_
  · rw [size_pointAt, setParent, size_modify, bind, size_modify]
  · rw [frame?_pointAt, setParent, frame?_modify, frame?_bind]
    by_cases hm : mask = f <;> by_cases ht : top = f <;>
      rcases h.frame? f with _ | fr <;> simp [hm, ht]

namespace Tuned

variable {h h' : Heap} {mask top : EnvId}

theorem isMask (ht : h.Tuned mask top) : h.isMask mask := by
  obtain ⟨scope, hp⟩ := ht.tracks
  exact hp.isMask

theorem isLive_mask (ht : h.Tuned mask top) : h.isLive mask := isLive_of_hasLocal ht.isMask

theorem isLive_top (ht : h.Tuned mask top) : h.isLive top := by
  obtain ⟨scope, hp⟩ := ht.tracks
  exact isLive_of_parent? hp.link

theorem mask_ne_top (ht : h.Tuned mask top) (hac : h.Acyclic) : mask ≠ top := by
  intro heq
  have hlink := ht.link
  rw [heq] at hlink
  exact hac top (.single hlink)

/-- The frame of the mask and the parent of the top frame are all that counts, if no override
that does not fit is new. -/
theorem congr (ht : h.Tuned mask top) (hmask : h'.frame? mask = h.frame? mask)
    (htop : h'.parent? top = h.parent? top)
    (halone : ∀ e name o, h'.local? e name = some (.override o) → o.Fits mask top) :
    h'.Tuned mask top := by
  have hlocal := local?_congr hmask
  obtain ⟨scope, hp⟩ := ht.tracks
  refine ⟨⟨scope, ?_, ?_, ?_, ?_⟩, ?_, ?_, halone⟩
  · rw [Heap.isMask, hasLocal, hlocal]
    exact hp.isMask
  · rw [hlocal, hp.topEnv]
  · rw [hlocal, hp.env]
  · rw [Link, htop]
    exact hp.link
  · rw [hlocal, ht.override]
  · rw [Link, parent?, hmask]
    exact ht.link

/-- Rewiring another frame. -/
theorem setParent (ht : h.Tuned mask top) {e : EnvId} (hm : e ≠ mask) (hn : e ≠ top)
    (p : Option EnvId) : (h.setParent e p).Tuned mask top := by
  apply ht.congr
  · rw [Heap.setParent, frame?_modify, if_neg hm]
  · rw [parent?_setParent, if_neg hn]
  · intro f name o ho
    rw [local?_setParent] at ho
    exact ht.alone f name o ho

/-- Pointing a mask, this one or one beside it. -/
theorem pointAt (ht : h.Tuned mask top) (hac : h.Acyclic) {overscope t : EnvId}
    (hfit : Override.Fits mask top ⟨overscope, t⟩) (target : EnvId) :
    (h.pointAt overscope t target).Tuned mask top := by
  have halone : ∀ e name o,
      (h.pointAt overscope t target).local? e name = some (.override o) → o.Fits mask top := by
    intro e name o ho
    rw [local?_pointAt] at ho
    split at ho
    · cases ho
    · exact ht.alone e name o ho
  by_cases hn : t = top
  · obtain ⟨rfl, rfl⟩ := Override.mk.inj (hfit (Or.inr (Or.inr hn)))
    obtain ⟨scope, hp⟩ := ht.tracks
    refine ⟨⟨target, hp.pointAt target⟩, ?_, ?_, halone⟩
    · rw [local?_pointAt, if_neg fun hc => absurd hc.2.2 (by decide), ht.override]
    · rw [Link, parent?_pointAt, if_neg (Ne.symm (ht.mask_ne_top hac))]
      exact ht.link
  · obtain ⟨hmask, htop⟩ := hfit.apart hn
    apply ht.congr _ _ halone
    · rw [Heap.pointAt, frame?_bind, if_neg hmask, Heap.setParent, frame?_modify, if_neg htop]
    · rw [parent?_pointAt, if_neg hn]

/-- A sweep that spares the mask, which is held. -/
theorem sweep (ht : h.Tuned mask top) {held : List EnvId} (hheld : mask ∈ held) :
    (h.sweep held).Tuned mask top := by
  have hlive := isLive_sweep_of_mem hheld ht.isLive_mask
  have hmask := frame?_sweep_of_isLive hlive
  apply ht.congr hmask
  · exact parent?_congr (frame?_sweep_of_link ht.link hmask)
  · exact fun e name o ho => ht.alone e name o (local?_of_sweep ho)

end Tuned

end Heap

/-! ## States -/

/-- A sound state in which the slots of the mask agree. -/
structure State.Tuned (mask top : EnvId) (s : State) : Prop where
  sound : s.Sound
  heap : s.heap.Tuned mask top

namespace State.Tuned

variable {mask top : EnvId} {s s' : State}

theorem learns (hs : s.Tuned mask top) (hl : s.LearnsTo s') : s'.Tuned mask top := by
  refine ⟨hl.sound hs.sound, ?_⟩
  rw [hl.heap]
  exact hs.heap

theorem nested (hs : s.Tuned mask top) :
    ({ s with depth := s.depth + 1 } : State).Tuned mask top :=
  ⟨⟨hs.sound.acyclic, hs.sound.settled⟩, hs.heap⟩

/-- Splicing a scope in, by the override of the mask or by one beside it. -/
theorem spliced (hs : s.Tuned mask top) {overscope t target : EnvId}
    (hfit : Override.Fits mask top ⟨overscope, t⟩)
    (hoff : s.heap.hasAncestor target t = false) :
    (s.spliced overscope t target).Tuned mask top := by
  have hset := settled_spliced hs.sound.settled overscope t target
  by_cases hm : s.heap.isMask overscope
  · have hheap : (s.spliced overscope t target).heap = s.heap.pointAt overscope t target := by
      rw [State.spliced, if_pos hm]
      exact Heap.setParent_bind s.heap overscope t target
    refine ⟨⟨?_, hset⟩, ?_⟩
    · rw [hheap]
      exact Heap.acyclic_pointAt hs.sound.acyclic hoff overscope
    · rw [hheap]
      exact hs.heap.pointAt hs.sound.acyclic hfit target
  · have hheap : (s.spliced overscope t target).heap = s.heap.setParent t (some target) := by
      rw [State.spliced, if_neg hm]
      rfl
    -- The mask is a data mask, so this is another one, and its top frame is another one too.
    have hother : overscope ≠ mask := by
      rintro rfl
      exact hm hs.heap.isMask
    have htop : t ≠ top := by
      rintro rfl
      exact hother (Override.mk.inj (hfit (Or.inr (Or.inr rfl)))).1
    refine ⟨⟨?_, hset⟩, ?_⟩
    · rw [hheap]
      exact Heap.acyclic_setParent hs.sound.acyclic (Bool.eq_false_iff.1 hoff)
    · rw [hheap]
      exact hs.heap.setParent (hfit.apart htop).2 htop _

/-- A head means no override that does not fit. -/
theorem fits_of_resolve (hs : s.Tuned mask top) {head : Head} {env : EnvId} {o : Override}
    (ho : (head.resolve env s).1 = .ok (.override o)) : o.Fits mask top := by
  obtain ⟨e, name, -, hlocal⟩ := Head.exists_local?_of_resolve ho
  exact hs.heap.alone e name o hlocal

end State.Tuned

theorem invariant_tuned (mask top : EnvId) : Invariant (State.Tuned mask top) :=
  ⟨fun hs => hs.sound.settled, fun hs hl => hs.learns hl⟩

/-! ## Evaluations -/

/-- Whatever is evaluated, and wherever, the slots agree at each evaluation on the way. -/
theorem preserved_tuned (mask top : EnvId) :
    Preserved (fun _ => True) (State.Tuned mask top) (Override.Fits mask top)
      fun _ => True where
  toInvariant := invariant_tuned mask top
  nested hs := hs.nested
  override hs _ ho := hs.fits_of_resolve ho
  mask _ := trivial
  scope _ _ := trivial
  spliced hs hfit _ hoff := hs.spliced hfit hoff

end Overscope
