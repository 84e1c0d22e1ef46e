-- Stripping a data mask twice. The first time takes the top frame off the record, so the second
-- time the parent of the mask counts as the top one and is emptied. That is harmless where the
-- first time emptied it already, and costs a caller the bindings where it did not.
import Overscope.Proofs.MaskChain

open Relation

namespace Overscope

namespace Heap

theorem clear_eq_self_iff {h : Heap} {e : EnvId} : h.clear e = h ↔ h.bindings e = .empty := by
  constructor
  · intro heq
    rw [← heq, bindings, frame?_clear, if_pos rfl]
    rcases h.frame? e with _ | fr <;> rfl
  · intro hb
    refine modify_eq_self fun fr hfr => ?_
    rw [bindings, hfr] at hb
    rw [← show fr.bindings = .empty from hb]

/-- What a frame does not bind need not be unbound. -/
theorem unbind_eq_self {h : Heap} {e : EnvId} {name : Name} (hn : h.local? e name = none) :
    h.unbind e name = h := by
  refine modify_eq_self fun fr hfr => ?_
  rw [local?, bindings, hfr] at hn
  exact Frame.ext (Table.erase_eq_self hn) rfl

theorem foldl_unbind_eq_self {h : Heap} {e : EnvId} {names : List Name}
    (hnone : ∀ n ∈ names, h.local? e n = none) : names.foldl (·.unbind e ·) h = h := by
  induction names with
  | nil => rfl
  | cons n names ih =>
    rw [List.forall_mem_cons] at hnone
    rw [List.foldl_cons, unbind_eq_self hnone.1, ih hnone.2]

/-- Without the names of a mask and without a parent there is nothing to strip, and with a
parent there is that one to empty. -/
theorem stripMask_of_nameless {h : Heap} {mask : EnvId}
    (hnone : ∀ n ∈ maskNames, h.local? mask n = none) :
    h.stripMask mask = match h.parent? mask with
      | some bottom => h.clear bottom
      | none => h := by
  have htop : h.local? mask .topEnv = none := hnone .topEnv (by decide)
  rw [stripMask_eq_foldl, foldl_unbind_eq_self hnone]
  rcases hp : h.parent? mask with _ | bottom
  · rw [emptied_of_root hp]
    rfl
  · rw [emptied_of_link hp ((lastEmptied?_of_none (by simp [htop])).trans hp), dataFrames_self]
    rfl

section
variable {h : Heap} {mask bottom : EnvId}

theorem local?_stripMask_self {n : Name} (hn : n ∈ maskNames) :
    (h.stripMask mask).local? mask n = none := by
  rw [local?, bindings, frame?_stripMask]
  rcases h.frame? mask with _ | fr
  · by_cases hmask : mask ∈ h.emptied mask <;> simp [hmask]
  · by_cases hmask : mask ∈ h.emptied mask <;>
      simp [hmask, Frame.empty, Table.get?_withoutMaskNames, hn]

/-- The parent of the mask is emptied unless there is a top frame on record that is not on
its chain. -/
theorem mem_emptied_iff (hp : h.Link mask bottom) :
    bottom ∈ h.emptied mask ↔
      ∀ top, h.local? mask .topEnv = some (.env top) → h.hasAncestor bottom top := by
  by_cases htop : ∃ top, h.local? mask .topEnv = some (.env top)
  · obtain ⟨top, htop⟩ := htop
    rw [emptied_of_link hp (lastEmptied?_of_top htop), mem_dataFrames_self_iff]
    refine ⟨fun ha top' htop' => ?_, fun ha => ha top htop⟩
    rw [htop] at htop'
    cases htop'
    exact ha
  · have hlast : h.lastEmptied? mask = some bottom :=
      (lastEmptied?_of_none fun top ht => htop ⟨top, ht⟩).trans hp
    rw [emptied_of_link hp hlast, mem_dataFrames_self_iff]
    exact iff_of_true (h.hasAncestor_self bottom) fun top ht => absurd ⟨top, ht⟩ htop

theorem bindings_stripMask_parent (hac : h.Acyclic) (hp : h.Link mask bottom) :
    (h.stripMask mask).bindings bottom = .empty ↔
      bottom ∈ h.emptied mask ∨ h.bindings bottom = .empty := by
  have hne : mask ≠ bottom := by
    rintro rfl
    exact hac mask (TransGen.single hp)
  rw [bindings, frame?_stripMask, if_neg hne]
  by_cases hin : bottom ∈ h.emptied mask
  · rw [if_pos hin]
    refine iff_of_true ?_ (Or.inl hin)
    rcases h.frame? bottom with _ | fr <;> rfl
  · rw [if_neg hin, ← bindings]
    exact (or_iff_right hin).symm

end

/-- A frame with the flag of a data mask is stripped, and what nothing holds any more dies. To
strip the frame once more empties its parent, since there is no top frame on record by then.
That changes nothing exactly if the first time the parent was emptied already, or binds nothing
anyway: unless the top frame on record is not on its chain. -/
theorem stripMask_twice_iff {h : Heap} (hac : h.Acyclic) {mask : EnvId} (hm : h.isMask mask)
    {held : List EnvId} (hheld : mask ∈ held) :
    let t := (h.stripMask mask).sweep held
    (t.stripMask mask = t ↔ ∀ bottom top, h.Link mask bottom →
      h.local? mask .topEnv = some (.env top) →
        h.hasAncestor bottom top ∨ h.bindings bottom = .empty) ∧
    ∀ bottom, h.Link mask bottom → t.stripMask mask = t.clear bottom := by
  intro t
  have hlinks := h.sameLinks_stripMask mask
  have hlive : t.isLive mask :=
    isLive_sweep_of_mem hheld ((hlinks.isLive mask).trans (isLive_of_hasLocal hm))
  have hmask : t.frame? mask = (h.stripMask mask).frame? mask := frame?_sweep_of_isLive hlive
  have hparent : t.parent? mask = h.parent? mask :=
    (parent?_congr hmask).trans (hlinks.parent mask)
  have hnone : ∀ n ∈ maskNames, t.local? mask n = none := fun n hn =>
    (local?_congr hmask n).trans (local?_stripMask_self hn)
  have hagain := stripMask_of_nameless hnone
  rw [hparent] at hagain
  rcases hp : h.parent? mask with _ | bottom
  · rw [hp] at hagain
    refine ⟨iff_of_true hagain fun bottom top hlink => ?_, fun bottom hlink => ?_⟩
    · cases hp.symm.trans hlink
    · cases hp.symm.trans hlink
  · rw [hp] at hagain
    have hbottom : t.bindings bottom = (h.stripMask mask).bindings bottom :=
      bindings_congr (frame?_sweep_of_link ((hlinks.parent mask).trans hp) hmask)
    refine ⟨?_, fun b hlink => ?_⟩
    · rw [hagain, clear_eq_self_iff, hbottom, bindings_stripMask_parent hac hp, mem_emptied_iff hp]
      constructor
      · intro hor b top hlink htop
        rw [hlink.eq hp]
        exact hor.imp_left fun ha => ha top htop
      · intro hall
        by_cases hb : h.bindings bottom = .empty
        · exact Or.inr hb
        · exact Or.inl fun top htop => (hall bottom top hp htop).resolve_right hb
    · rw [hlink.eq hp]
      exact hagain

/-- The frame of data of the sample mask is emptied the first time. -/
theorem stripMask_twice_iff_sample :
    let h := State.sampleMask.heap
    let held := State.sampleMask.held
    let t := (h.stripMask ⟨3⟩).sweep held
    h.Acyclic ∧ h.isMask ⟨3⟩ ∧ (⟨3⟩ : EnvId) ∈ held ∧ ¬ t.isMask ⟨3⟩ ∧ t.stripMask ⟨3⟩ = t := by
  intro h held t
  have hac : h.Acyclic := by decide +kernel
  have hm : h.isMask ⟨3⟩ := by decide +kernel
  have hheld : (⟨3⟩ : EnvId) ∈ held := by decide
  have hp : h.parent? ⟨3⟩ = some ⟨2⟩ := by decide +kernel
  have htop : h.local? ⟨3⟩ .topEnv = some (.env ⟨2⟩) := rfl
  refine ⟨hac, hm, hheld, by decide +kernel, (stripMask_twice_iff hac hm hheld).1.2 ?_⟩
  intro bottom top hlink ht
  rw [htop] at ht
  cases ht
  rw [hlink.eq hp]
  exact Or.inl (h.hasAncestor_self ⟨2⟩)

/-- The top frame ⟨2⟩ of the stranded mask ⟨3⟩ is hung into the global environment, where
`x = 2`, and so is the mask, past its top frame. It is stripped, and `x` is left, as a binding
above the top frame is to be. It is stripped once more, no mask by then, and `x` is gone. -/
theorem not_stripMask_twice_sampleStranded :
    let h := (Heap.sampleStranded.setParent ⟨2⟩ (some .global)).setParent ⟨3⟩ (some .global)
    let t := (h.stripMask ⟨3⟩).sweep [.base, .global, ⟨2⟩, ⟨3⟩]
    h.Acyclic ∧ h.isMask ⟨3⟩ ∧ h.local? ⟨3⟩ .topEnv = some (.env ⟨2⟩) ∧
      .global ∈ (h.chain ⟨2⟩).tail ∧ (⟨2⟩ : EnvId) ∉ h.chain ⟨3⟩ ∧ ¬ t.isMask ⟨3⟩ ∧
      (t.local? .global ⟨12⟩).map (· == .int 2) = some true ∧
      ((t.stripMask ⟨3⟩).local? .global ⟨12⟩).isNone ∧ t.stripMask ⟨3⟩ ≠ t := by
  intro h t
  have hx : (t.local? .global ⟨12⟩).map (· == .int 2) = some true := by decide +kernel
  have hgone : ((t.stripMask ⟨3⟩).local? .global ⟨12⟩).isNone := by decide +kernel
  refine ⟨by decide +kernel, by decide +kernel, rfl, by decide +kernel, by decide +kernel,
    by decide +kernel, hx, hgone, fun heq => ?_⟩
  rw [heq, Option.isNone_iff_eq_none] at hgone
  rw [hgone] at hx
  cases hx

end Heap

end Overscope
