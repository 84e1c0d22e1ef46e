-- The life of a mask that is built for one evaluation. Nothing but the evaluation holds it,
-- and in the end nothing but the result can: no older frame, and no frame of its own. So it
-- dies with the evaluation, or with the last holder of a result that holds it, and an
-- override of it that got away finds it gone.
import Overscope.Proofs.Layers
import Overscope.Proofs.MaskScope
import Overscope.Proofs.Limit

open Relation

namespace Overscope

namespace Heap

/-! ## What is left to be let go -/

/-- `t` is `h` with the frames of a mask, of which the mask itself is held by none. -/
structure OwnFrames (h : Heap) (mask top : EnvId) (t : Heap) : Prop where
  layered : t.Layered h.size
  isNew : h.size ≤ top.index
  order : top.index ≤ mask.index
  others : ∀ e, h.size ≤ e.index → t.isLive e → e = top ∨ e = mask
  isLive : t.isLive mask ∧ t.isLive top
  link : top = mask ∨ t.Holds mask top

namespace OwnFrames

variable {h t : Heap} {mask top : EnvId} {kept held : List EnvId}

/-- A frame of the mask is alive because it is kept, or because the mask holds it. -/
theorem mem_kept (ht : h.OwnFrames mask top t) (hheld : ∀ x ∈ held, x.index < h.size) {e : EnvId}
    (he : h.size ≤ e.index) (hl : (t.sweep (kept ++ held)).isLive e) :
    e ∈ kept ∨ (e.index < mask.index ∧ (t.sweep (kept ++ held)).isLive mask) := by
  have hlayered := ht.layered.sweep (kept ++ held)
  obtain ⟨r, hr, hrn, hpath⟩ := hlayered.exists_held (settled_sweep t (kept ++ held)) he hl
  rcases hpath.cases_tail with rfl | ⟨g, -, hg⟩
  · rcases List.mem_append.1 hr with hr | hr
    · exact Or.inl hr
    · exact absurd (hheld _ hr) (Nat.not_lt.2 hrn)
  · -- The holder is newer than the frame, so it is the mask.
    have hlt := hlayered.falls g e hg
    have hlive := hg.isLive
    have hlt' : e.index < g.index := by omega
    rcases ht.others g (by omega) (isLive_of_sweep hlive) with rfl | rfl
    · rcases ht.others e he (isLive_of_sweep hl) with rfl | rfl
      · exact absurd hlt' (Nat.lt_irrefl _)
      · exact absurd ht.order (Nat.not_le.2 hlt')
    · exact Or.inr ⟨hlt', hlive⟩

theorem isLive_mask_iff (ht : h.OwnFrames mask top t) (hheld : ∀ x ∈ held, x.index < h.size) :
    (t.sweep (kept ++ held)).isLive mask ↔ mask ∈ kept := by
  constructor
  · intro hl
    rcases ht.mem_kept hheld (Nat.le_trans ht.isNew ht.order) hl with hkept | ⟨hlt, -⟩
    · exact hkept
    · exact absurd hlt (Nat.lt_irrefl _)
  · intro hkept
    exact isLive_sweep_of_mem (List.mem_append_left _ hkept) ht.isLive.1

theorem isLive_top_iff (ht : h.OwnFrames mask top t) (hheld : ∀ x ∈ held, x.index < h.size) :
    (t.sweep (kept ++ held)).isLive top ↔ mask ∈ kept ∨ top ∈ kept := by
  constructor
  · intro hl
    rcases ht.mem_kept hheld ht.isNew hl with hkept | ⟨-, hmask⟩
    · exact Or.inr hkept
    · exact Or.inl ((ht.isLive_mask_iff hheld).1 hmask)
  · rintro (hkept | hkept)
    · have hmask := (ht.isLive_mask_iff hheld).2 hkept
      rcases ht.link with rfl | hholds
      · exact hmask
      · obtain ⟨f, hf, htop⟩ := holds_iff.1 hholds
        rw [Heap.isLive, frame?_sweep_of_handle hf htop hmask, ← Heap.isLive]
        exact ht.isLive.2
    · exact isLive_sweep_of_mem (List.mem_append_left _ hkept) ht.isLive.2

end OwnFrames

/-! ### The two kinds of masks -/

variable {h t : Heap} {scope : EnvId}

theorem ownFrames_addQuosureMask (hmade : ∀ x ∈ h.handles, x.index < h.size)
    (hscope : scope.index < h.size) :
    h.OwnFrames ⟨h.size⟩ ⟨h.size⟩ (h.addQuosureMask scope).2 := by
  have hlive : (h.addQuosureMask scope).2.isLive ⟨h.size⟩ :=
    isLive_of_parent? (h.link_addQuosureMask scope)
  refine ⟨(Layered.of_handles hmade).addQuosureMask hscope, Nat.le_refl _, Nat.le_refl _, ?_,
    ⟨hlive, hlive⟩, Or.inl rfl⟩
  intro e he hl
  by_contra hne
  rw [isLive, frame?_addQuosureMask, if_neg fun heq => hne (Or.inl heq), frame?_eq_none he] at hl
  cases hl

theorem StrippedMask.layered (ht : h.StrippedMask scope t)
    (hmade : ∀ x ∈ h.handles, x.index < h.size) (hscope : scope.index < h.size) :
    t.Layered h.size where
  falls e x hx := by
    obtain ⟨f, hf, hxf⟩ := holds_iff.1 hx
    rcases Nat.lt_or_ge e.index h.size with he | he
    · rw [ht.old e he] at hf
      have hlt := hmade x (mem_handles_iff.2 ⟨e, f, hf, hxf⟩)
      omega
    · have hlt := ht.handles_lt hscope he hf x hxf
      omega
  env e x hx := by
    rcases Nat.lt_or_ge e.index h.size with he | he
    · rw [local?, bindings, ht.old e he] at hx
      exact hmade x (mem_handles_of_local? hx (List.mem_singleton_self x))
    · have hlive := isLive_of_local? hx
      rcases eq_newBottom_or_newMask ht.size he hlive with rfl | rfl
      · rw [local?, bindings, ht.bottom] at hx
        cases hx
      · rw [local?, bindings, ht.mask] at hx
        cases hx

theorem StrippedMask.ownFrames (ht : h.StrippedMask scope t)
    (hmade : ∀ x ∈ h.handles, x.index < h.size) (hscope : scope.index < h.size) :
    h.OwnFrames h.newMask h.newBottom t where
  layered := ht.layered hmade hscope
  isNew := h.size_le_newBottom
  order := Nat.le_succ _
  others _ he hl := eq_newBottom_or_newMask ht.size he hl
  isLive := by
    rw [Heap.isLive, Heap.isLive, ht.mask, ht.bottom]
    exact ⟨rfl, rfl⟩
  link := Or.inr (Or.inl (by rw [Link, parent?, ht.mask]; rfl))

end Heap

/-! ## Letting go -/

/-- An evaluation lets go of the mask that was built for it: the outcome and the state after
it, from the state before. -/
structure State.LetsGo (s : State) (mask top : EnvId) (out : Except EvalError Value × State) :
    Prop where
  /-- There are no other new frames. -/
  others : ∀ e, s.heap.size ≤ e.index → out.2.heap.isLive e → e = top ∨ e = mask
  /-- The mask is alive exactly if the result holds it. -/
  isLive_mask_iff : out.2.heap.isLive mask ↔ mask ∈ keptBy out.1
  /-- Its top frame is alive exactly if the result holds one of the two. -/
  isLive_top_iff : out.2.heap.isLive top ↔ mask ∈ keptBy out.1 ∨ top ∈ keptBy out.1
  /-- Nothing that was there before holds them, and they do not hold themselves. -/
  detached : out.2.heap.Detached s.heap.size
  /-- An override of the mask finds it gone, -/
  dropped : mask ∉ keptBy out.1 → ∀ o : Override, o.mask = mask →
    o.frames out.2 = (.error .maskDropped, out.2)
  /-- or goes on in it if the result holds it. -/
  goesOn : mask ∈ keptBy out.1 → Override.frames ⟨mask, top⟩ out.2 = (.ok (mask, top), out.2)
  /-- Once the result is let go of they are gone too. -/
  released : ∀ e, s.heap.size ≤ e.index → ¬ out.2.sweep.heap.isLive e

section

variable {s : State} {mask top : EnvId}

/-- All of it follows from what is swept. -/
theorem State.letsGo_of_ownFrames {t : Heap} {r : Except EvalError Value} {s' : State}
    (ht : s.heap.OwnFrames mask top t) (hheld : ∀ x ∈ s.held, x.index < s.heap.size)
    (heq : s'.heap = t.sweep (keptBy r ++ s.held)) (hs' : s'.held = s.held) :
    s.LetsGo mask top (r, s') := by
  have hmask : s'.heap.isLive mask ↔ mask ∈ keptBy r := by
    rw [heq]
    exact ht.isLive_mask_iff hheld
  have htop : s'.heap.isLive top ↔ mask ∈ keptBy r ∨ top ∈ keptBy r := by
    rw [heq]
    exact ht.isLive_top_iff hheld
  have hlayered : s'.heap.Layered s.heap.size := by
    rw [heq]
    exact ht.layered.sweep _
  refine ⟨fun e he hl => ?_, hmask, htop, hlayered.detached, fun hnot o ho => ?_,
    fun hin => ?_, fun e he hl => ?_⟩
  · rw [heq] at hl
    exact ht.others e he (Heap.isLive_of_sweep hl)
  · have hdead : s'.heap.isLive o.mask = false := by
      rw [ho]
      exact Bool.eq_false_iff.2 fun hl => hnot (hmask.1 hl)
    exact o.frames_of_dead hdead
  · exact Override.frames_of_isLive (hmask.2 hin) (htop.2 (Or.inl hin))
  · -- Nothing outside of the scope graph holds a new frame any longer.
    obtain ⟨r, hr, hrn, -⟩ := (hlayered.sweep s'.held).exists_held (Heap.settled_sweep _ _) he hl
    rw [hs'] at hr
    exact absurd (hheld r hr) (Nat.not_lt.2 hrn)

/-- Where no mask was built there is nothing to let go of. -/
theorem State.letsGo_refused (hmade : ∀ x ∈ s.heap.handles, x.index < s.heap.size)
    (hmask : s.heap.size ≤ mask.index) (htop : s.heap.size ≤ top.index) (err : EvalError) :
    s.LetsGo mask top (.error err, s) := by
  have hdead : ∀ e, s.heap.size ≤ e.index → s.heap.isLive e = false := fun e he =>
    Bool.eq_false_iff.2 fun hl => absurd (Heap.index_lt_size hl) (Nat.not_lt.2 he)
  refine ⟨fun e he hl => ?_, ?_, ?_, (Heap.Layered.of_handles hmade).detached,
    fun _ o ho => ?_, fun hin => absurd hin List.not_mem_nil, fun e he hl => ?_⟩
  · rw [hdead e he] at hl
    cases hl
  · simp [hdead mask hmask, keptBy]
  · simp [hdead top htop, keptBy]
  · rw [← ho] at hmask
    exact o.frames_of_dead (hdead o.mask hmask)
  · have hl' := Heap.isLive_of_sweep hl
    rw [hdead e he] at hl'
    cases hl'

/-- A mask of its own is built, or refused, and taken down, and meanwhile code that was there
before is evaluated in it. -/
theorem letsGo_traceInOwnMask {mode : Mode} {e : Expr}
    {build : Heap → Except EvalError (EnvId × Heap)} {takeDown : Heap → EnvId → Heap}
    (hmade : ∀ x ∈ e.handles, x.index < s.heap.size)
    (hheap : ∀ x ∈ s.heap.handles, x.index < s.heap.size)
    (hheld : ∀ x ∈ s.held, x.index < s.heap.size)
    (hnew : s.heap.size ≤ mask.index ∧ s.heap.size ≤ top.index)
    (hbuild : ∀ m h, build s.heap = .ok (m, h) → m = mask ∧ h.Layered s.heap.size ∧
      h.Settled (m :: s.held) ∧ s.heap.OwnFrames m top (takeDown h m)) :
    s.LetsGo mask top ((traceInOwnMask build takeDown (e.trace mode)).run s) ∧
      ∀ v ∈ (traceInOwnMask build takeDown (e.trace mode)).visits s,
        v.state.heap.Detached s.heap.size := by
  simp only [traceInOwnMask]
  rcases hb : build s.heap with err | ⟨m, h⟩
  · rw [inOwnMask_error hb]
    exact ⟨State.letsGo_refused hheap hnew.1 hnew.2 err, List.forall_mem_nil _⟩
  · obtain ⟨rfl, hlayered, hset, hown⟩ := hbuild m h hb
    constructor
    · rw [inOwnMask_ok hb hset (e.run_trace mode m ▸ e.putsBack_eval mode m)]
      exact State.letsGo_of_ownFrames hown hheld rfl rfl
    · intro v hv
      exact ((e.preserves_trace (preserved_layered s.heap.size) mode hmade trivial).visits
        ⟨hlayered, hset⟩ v hv).2.heap.detached

end

/-- An evaluation with data that is no mask lets go of the mask that is built for it, however
it ends: the mask and its bottom frame live on only if the result holds them. At no time on
the way did a frame that was there before hold one of them, or one of them keep itself
alive. -/
theorem evalWithData_letsGo (mode : Mode) {code data : Value} {env : EnvId} {s : State}
    (hs : s.heap.Settled s.held)
    (hmade : ∀ x ∈ env :: (code.handles ++ data.handles ++ s.heap.handles ++ s.held),
      x.index < s.heap.size)
    (hown : data.env?.filter s.heap.isMask = none) :
    s.LetsGo (s.heap.ownMask data) (s.heap.ownTop data) (evalWithData mode code data env s) ∧
      ∀ v ∈ (traceWithData mode code data env).visits s, v.state.heap.Detached s.heap.size := by
  simp only [List.mem_cons, List.mem_append] at hmade
  have hcode : ∀ x ∈ code.handles, x.index < s.heap.size :=
    fun x hx => hmade x (Or.inr (Or.inl (Or.inl (Or.inl hx))))
  have hdata : ∀ x ∈ data.handles, x.index < s.heap.size :=
    fun x hx => hmade x (Or.inr (Or.inl (Or.inl (Or.inr hx))))
  have hheap : ∀ x ∈ s.heap.handles, x.index < s.heap.size :=
    fun x hx => hmade x (Or.inr (Or.inl (Or.inr hx)))
  have hheld : ∀ x ∈ s.held, x.index < s.heap.size := fun x hx => hmade x (Or.inr (Or.inr hx))
  have hscope : (code.scopeOr env).index < s.heap.size := by
    rcases List.mem_cons.1 (code.scopeOr_mem env) with heq | hin
    · exact hmade _ (Or.inl heq)
    · exact hcode _ hin
  have hbody : ∀ x ∈ code.body.handles, x.index < s.heap.size :=
    fun x hx => hcode x (Value.mem_handles_of_body hx)
  rw [evalWithData_of_none mode hown, visits_traceWithData_of_none hown]
  unfold traceInData
  split
  · refine letsGo_traceInOwnMask hbody hheap hheld ⟨Nat.le_refl _, Nat.le_refl _⟩ fun m h hb => ?_
    cases hb
    exact ⟨rfl, (Heap.Layered.of_handles hheap).addQuosureMask hscope,
      (Heap.growsByMask_addQuosureMask hscope).settled hs,
      Heap.ownFrames_addQuosureMask hheap hscope⟩
  · next hne =>
    obtain ⟨hmask, htop⟩ := s.heap.ownMask_of_ne_null hne
    rw [hmask, htop]
    refine letsGo_traceInOwnMask hbody hheap hheld
      ⟨s.heap.size_le_newMask, s.heap.size_le_newBottom⟩ fun m h hb => ?_
    obtain ⟨rfl, hfresh⟩ := Heap.freshMask_maskOf hb
    exact ⟨rfl, Heap.Layered.maskOf hheap hscope hdata hb,
      (Heap.growsByMask_maskOf hscope hb).settled hs, hfresh.stripMask.ownFrames hheap hscope⟩

/-- The override of a mask gets away by its name, and finds the mask gone. A formula that was
made in the mask keeps it, and then the override goes on. -/
theorem evalWithData_letsGo_sample :
    State.initial.heap.Settled State.initial.held ∧
      let away := evalWithData .unlimited (.code (.symbol .tilde)) .sampleData .global .initial
      let kept := evalWithData .unlimited (.code .sampleFormula) .sampleData .global .initial
      (away.1.toOption.map (· == .override ⟨⟨3⟩, ⟨2⟩⟩) = some true ∧ ¬ away.2.heap.isLive ⟨3⟩ ∧
        Override.frames ⟨⟨3⟩, ⟨2⟩⟩ away.2 = (.error .maskDropped, away.2)) ∧
      (keptBy kept.1 = [⟨3⟩] ∧ kept.2.heap.isLive ⟨2⟩ ∧
        Override.frames ⟨⟨3⟩, ⟨2⟩⟩ kept.2 = (.ok (⟨3⟩, ⟨2⟩), kept.2) ∧
        ¬ kept.2.sweep.heap.isLive ⟨3⟩) := by
  have hs := State.sound_initial.settled
  obtain ⟨haway, -⟩ := @evalWithData_letsGo .unlimited (.code (.symbol .tilde)) .sampleData
    .global .initial hs (by decide) rfl
  obtain ⟨hkept, -⟩ := @evalWithData_letsGo .unlimited (.code .sampleFormula) .sampleData
    .global .initial hs (by decide) rfl
  have hnone : keptBy (evalWithData .unlimited (.code (.symbol .tilde)) .sampleData .global
      .initial).1 = [] := by decide +kernel
  have hone : keptBy (evalWithData .unlimited (.code .sampleFormula) .sampleData .global
      .initial).1 = [⟨3⟩] := by decide +kernel
  have hin : (⟨3⟩ : EnvId) ∈ keptBy (evalWithData .unlimited (.code .sampleFormula) .sampleData
      .global .initial).1 := by
    rw [hone]
    exact List.mem_singleton_self _
  have hout : (⟨3⟩ : EnvId) ∉ keptBy (evalWithData .unlimited (.code (.symbol .tilde)) .sampleData
      .global .initial).1 := by
    rw [hnone]
    exact List.not_mem_nil
  refine ⟨hs, ⟨by decide +kernel, fun hl => hout (haway.isLive_mask_iff.1 hl), ?_⟩,
    ⟨hone, hkept.isLive_top_iff.2 (Or.inl hin), hkept.goesOn hin,
      hkept.released ⟨3⟩ (by decide)⟩⟩
  exact haway.dropped hout ⟨⟨3⟩, ⟨2⟩⟩ rfl

end Overscope
