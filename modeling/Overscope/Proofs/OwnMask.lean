-- Evaluation in a mask of its own. When it ends the mask is taken down: no frame that
-- was there before is another one, and of the two frames of the mask nothing is left,
-- or, if the result holds them, empty frames that go on in the scope.
import Overscope.Proofs.PutBack
import Overscope.Proofs.Stripping
import Overscope.Proofs.Walks

namespace Overscope

namespace Heap

/-! ## What a sweep spares -/

/-- Frames that had holders among themselves or outside live on, whatever was added. -/
theorem frame?_sweep_of_old {h h' : Heap} {held held' : List EnvId} (hs : h.Settled held)
    (hold : ∀ e, e.index < h.size → h'.frame? e = h.frame? e) (hsub : held ⊆ held') :
    ∀ e, e.index < h.size → (h'.sweep held').frame? e = h.frame? e := by
  refine sweepUpTo_induction
    (P := fun t => ∀ e, e.index < h.size → t.frame? e = h.frame? e) ?_ _ hold
  intro t ht e he
  rw [frame?_foldl_kill, if_neg, ht e he]
  intro hin
  obtain ⟨hlive, hnot, hnotHeld⟩ := mem_unheld_iff.1 hin
  rw [isLive, ht e he, ← isLive] at hlive
  rcases settled_iff.1 hs e hlive with hhandle | hhandle
  · obtain ⟨g, f, hf, hef⟩ := mem_handles_iff.1 hhandle
    have hg : g.index < h.size := index_lt_size (by rw [isLive, hf]; rfl)
    exact hnot (mem_handles_iff.2 ⟨g, f, (ht g hg).trans hf, hef⟩)
  · exact hnotHeld (hsub hhandle)

/-- What a frame holds lives on as long as the frame does. -/
theorem frame?_sweep_of_handle {h : Heap} {held : List EnvId} {e x : EnvId} {f : Frame}
    (hf : h.frame? e = some f) (hx : x ∈ f.handles) (hl : (h.sweep held).isLive e) :
    (h.sweep held).frame? x = h.frame? x := by
  refine (sweepUpTo_induction
    (P := fun t => t.isLive e → t.frame? e = some f ∧ t.frame? x = h.frame? x) ?_ _
    (fun _ => ⟨hf, rfl⟩) hl).2
  intro t ht hround
  rw [isLive, frame?_foldl_kill] at hround
  split at hround
  · cases hround
  · next hspared =>
    obtain ⟨hte, htx⟩ := ht hround
    have hkept : x ∉ t.unheld held := fun hin =>
      (mem_unheld_iff.1 hin).2.1 (mem_handles_iff.2 ⟨e, f, hte, hx⟩)
    rw [frame?_foldl_kill, frame?_foldl_kill, if_neg hspared, if_neg hkept]
    exact ⟨hte, htx⟩

/-- What a frame binds lives on as long as the frame does. -/
theorem frame?_sweep_of_local? {h : Heap} {held : List EnvId} {e x : EnvId} {name : Name}
    {v : Value} (hv : h.local? e name = some v) (hx : x ∈ v.handles)
    (hl : (h.sweep held).isLive e) : (h.sweep held).frame? x = h.frame? x := by
  obtain ⟨f, hf, hxf⟩ := exists_frame?_of_local? hv hx
  exact frame?_sweep_of_handle hf hxf hl

/-- The parent of a frame that was spared is spared. -/
theorem frame?_sweep_of_link {h : Heap} {held : List EnvId} {e p : EnvId} (hp : h.Link e p)
    (he : (h.sweep held).frame? e = h.frame? e) : (h.sweep held).frame? p = h.frame? p := by
  obtain ⟨f, hf⟩ := Option.isSome_iff_exists.1 (isLive_of_parent? hp)
  have hparent : f.parent = some p := by
    rw [Link, parent?, hf] at hp
    exact hp
  have hmem : p ∈ f.handles := by
    rw [Frame.handles, hparent]
    exact List.mem_append_left _ (List.mem_singleton_self p)
  refine frame?_sweep_of_handle hf hmem ?_
  rw [isLive, he, hf]
  rfl

/-! ## Taking down -/

/-- `t` is `h` with the two frames of a mask that was taken down. -/
structure StrippedMask (h : Heap) (scope : EnvId) (t : Heap) : Prop where
  size : t.size = h.size + 2
  old : ∀ e, e.index < h.size → t.frame? e = h.frame? e
  bottom : t.frame? h.newBottom = some (.empty (some scope))
  mask : t.frame? h.newMask = some (.empty (some h.newBottom))

/-- Taking down a new mask empties its two frames and no other one. -/
theorem FreshMask.stripMask {h h' : Heap} {data : Value} {scope : EnvId}
    (hf : h.FreshMask data scope h') : h.StrippedMask scope (h'.stripMask h.newMask) := by
  have htop : h'.local? h.newMask .topEnv = some (.env h.newBottom) := by
    rw [hf.local?_mask]
    rfl
  have hemptied : h'.emptied h.newMask = [h.newBottom] := by
    rw [emptied_of_link hf.link_mask (lastEmptied?_of_top htop), dataFrames_self]
  have hframe := fun f => frame?_stripMask h' h.newMask f
  simp only [hemptied, List.mem_singleton] at hframe
  refine ⟨?_, fun e he => ?_, ?_, ?_⟩
  · rw [(h'.sameLinks_stripMask h.newMask).size, hf.size]
  · have hmask : h.newMask ≠ e := by
      rintro rfl
      simp only [newMask] at he
      omega
    have hbot : e ≠ h.newBottom := by
      rintro rfl
      simp only [newBottom] at he
      omega
    rw [hframe, if_neg hbot, if_neg hmask, hf.old e he]
  · obtain ⟨vars, hbottom, -⟩ := hf.bottom
    rw [hframe, if_pos rfl, hbottom]
    rfl
  · rw [hframe, if_neg h.newMask_ne_newBottom, if_pos rfl, hf.mask]
    exact congrArg some (Frame.ext (withoutMaskNames_maskBindings ..) rfl)

/-! ## Nothing is left -/

/-- `h'` is `h` after a mask was built over it in `scope` and taken down. The old frames
are the same ones. A frame of the mask is dead, or it binds nothing and leads on to the
scope. -/
structure LeavesNoTrace (h : Heap) (scope : EnvId) (h' : Heap) : Prop where
  old : ∀ e, e.index < h.size → h'.frame? e = h.frame? e
  bottom : ∀ f, h'.frame? h.newBottom = some f → f = .empty (some scope)
  mask : ∀ f, h'.frame? h.newMask = some f → f = .empty (some h.newBottom)
  whole : h'.isLive h.newMask → h'.isLive h.newBottom
  noOther : ∀ e, h'.isLive e → e.index < h.size ∨ e = h.newBottom ∨ e = h.newMask

/-- Where no mask was built nothing is to be left. -/
theorem LeavesNoTrace.refl (h : Heap) (scope : EnvId) : h.LeavesNoTrace scope h where
  old _ _ := rfl
  bottom f hf := by
    rw [frame?_eq_none h.size_le_newBottom] at hf
    cases hf
  mask f hf := by
    rw [frame?_eq_none h.size_le_newMask] at hf
    cases hf
  whole hl := absurd (index_lt_size hl) (Nat.not_lt.2 h.size_le_newMask)
  noOther _ hl := Or.inl (index_lt_size hl)

/-- Letting die what nothing holds any longer spares the old frames. -/
theorem StrippedMask.leavesNoTrace {h t : Heap} {scope : EnvId} (ht : h.StrippedMask scope t)
    {held held' : List EnvId} (hs : h.Settled held) (hsub : held ⊆ held') :
    h.LeavesNoTrace scope (t.sweep held') where
  old := frame?_sweep_of_old hs ht.old hsub
  bottom f hf := Option.some.inj ((frame?_of_sweep hf).symm.trans ht.bottom)
  mask f hf := Option.some.inj ((frame?_of_sweep hf).symm.trans ht.mask)
  whole hl := by
    have hholds : h.newBottom ∈ (Frame.empty (some h.newBottom)).handles := List.mem_cons_self ..
    rw [isLive, frame?_sweep_of_handle ht.mask hholds hl, ht.bottom]
    rfl
  noOther e hl := by
    have hsize : (t.sweep held').size = h.size + 2 := (size_sweep t held').trans ht.size
    rcases Nat.lt_or_ge e.index h.size with he | he
    · exact Or.inl he
    · exact Or.inr (eq_newBottom_or_newMask hsize he hl)

/-- Through an empty frame one sees what its parent sees. -/
theorem resolve_of_empty {h : Heap} {e p : EnvId} (hf : h.frame? e = some (.empty (some p)))
    (name : Name) :
    h.resolve? e name = h.resolve? p name ∧
      ∀ accept, h.resolveWhere? e name accept = h.resolveWhere? p name accept := by
  have hlink : h.Link e p := by rw [Link, parent?, hf]; rfl
  have hnone : h.local? e name = none := by rw [local?, bindings, hf]; rfl
  refine ⟨?_, fun accept => ?_⟩
  · rw [resolve?_of_link hlink, hnone, Option.none_or]
  · rw [resolveWhere?_of_link hlink, hnone, Option.filter_none, Option.none_or]

/-- Through what is left of a mask one sees what the scope sees, also later on. -/
theorem LeavesNoTrace.resolve {h h' later : Heap} {scope : EnvId} (hn : h.LeavesNoTrace scope h')
    (hsame : ∀ e, h.size ≤ e.index → h'.isLive e → later.frame? e = h'.frame? e) {e : EnvId}
    (he : h.size ≤ e.index) (hl : h'.isLive e) (name : Name) :
    later.resolve? e name = later.resolve? scope name ∧
      ∀ accept, later.resolveWhere? e name accept = later.resolveWhere? scope name accept := by
  have hbottom : h'.isLive h.newBottom →
      later.frame? h.newBottom = some (.empty (some scope)) := fun hlive => by
    obtain ⟨f, hf⟩ := Option.isSome_iff_exists.1 hlive
    rw [hsame _ h.size_le_newBottom hlive, hf, hn.bottom f hf]
  have hmask : h'.isLive h.newMask →
      later.frame? h.newMask = some (.empty (some h.newBottom)) := fun hlive => by
    obtain ⟨f, hf⟩ := Option.isSome_iff_exists.1 hlive
    rw [hsame _ h.size_le_newMask hlive, hf, hn.mask f hf]
  rcases hn.noOther e hl with hold | rfl | rfl
  · exact absurd hold (Nat.not_lt.2 he)
  · exact resolve_of_empty (hbottom hl) name
  · obtain ⟨hfind, hwhere⟩ := resolve_of_empty (hbottom (hn.whole hl)) name
    obtain ⟨hfind', hwhere'⟩ := resolve_of_empty (hmask hl) name
    exact ⟨hfind'.trans hfind, fun accept => (hwhere' accept).trans (hwhere accept)⟩

/-- Data that gets a mask of its own, with the data in it: a list, or an environment
that is no mask. -/
def IsPlainData (h : Heap) : Value → Prop
  | .list _ _ => True
  | .env e => h.isMask e = false
  | _ => False

end Heap

/-! ## Evaluation in a mask of its own -/

/-- The environments that an outcome holds. -/
def keptBy : Except EvalError Value → List EnvId
  | .ok v => v.handles
  | .error _ => []

theorem inOwnMask_error {build : Heap → Except EvalError (EnvId × Heap)}
    {takeDown : Heap → EnvId → Heap} {body : EnvId → EvalM Value} {s : State} {err : EvalError}
    (hb : build s.heap = .error err) : inOwnMask build takeDown body s = (.error err, s) := by
  unfold inOwnMask
  rw [hb]

/-- The mask is taken down as it was built, since the body puts back what it rewires. -/
theorem inOwnMask_ok {build : Heap → Except EvalError (EnvId × Heap)}
    {takeDown : Heap → EnvId → Heap} {body : EnvId → EvalM Value} {s : State} {mask : EnvId}
    {heap : Heap} (hb : build s.heap = .ok (mask, heap)) (hset : heap.Settled (mask :: s.held))
    (hbody : PutsBack (body mask)) :
    let out := body mask { s with heap, held := mask :: s.held }
    inOwnMask build takeDown body s =
      (out.1, { s.withMemo out.2.memo with
        heap := (takeDown heap mask).sweep (keptBy out.1 ++ s.held) }) := by
  have hout := (hbody { s with heap, held := mask :: s.held } hset).eq_withMemo
  simp only [inOwnMask, hb]
  rcases hrun : body mask { s with heap, held := mask :: s.held } with ⟨r, s'⟩
  rw [hrun] at hout
  simp only at hout ⊢
  rw [hout]
  cases r <;> rfl

/-- Plain data is evaluated in a mask of its own. -/
theorem evalWithData_of_isPlainData (mode : Mode) (code : Value) {data : Value} (env : EnvId)
    {s : State} (hdata : s.heap.IsPlainData data) :
    evalWithData mode code data env s =
      inOwnMask (·.maskOf data (code.scopeOr env)) Heap.stripMask (code.body.eval mode) s := by
  unfold evalWithData
  rw [Attempt.bind_run]
  cases data with
  | list kind entries => rfl
  | env e =>
    have hnone : (Value.env e).env?.filter s.heap.isMask = none := by
      have hno : s.heap.isMask e = false := hdata
      rw [Value.env?, Option.filter_some, hno]
      rfl
    simp only [Attempt.read, hnone]
    rfl
  | _ => exact absurd hdata id

/-- Evaluation with a list or with an environment that is no mask leaves no trace of its
mask, whether it ends in a value or in an error, or refuses the data. The old frames are
as they were, with no cycle asked for or ruled out. If the result holds a frame of the
mask, that frame is alive, and each name means at it, then and as long as nobody writes
to it, what it means in the scope of the evaluation. -/
theorem evalWithData_leavesNoTrace (mode : Mode) (code : Value) {data : Value} (env : EnvId)
    {s : State} (hs : s.heap.Settled s.held) (hdata : s.heap.IsPlainData data)
    (hscope : (code.scopeOr env).index < s.heap.size) :
    let out := evalWithData mode code data env s
    s.heap.LeavesNoTrace (code.scopeOr env) out.2.heap ∧
    (∀ v, out.1 = .ok v → ∀ e ∈ v.handles, e = s.heap.newBottom ∨ e = s.heap.newMask →
      out.2.heap.isLive e) ∧
    ∀ later : Heap, (∀ e, s.heap.size ≤ e.index → out.2.heap.isLive e →
        later.frame? e = out.2.heap.frame? e) →
      ∀ e, s.heap.size ≤ e.index → out.2.heap.isLive e → ∀ name,
        later.resolve? e name = later.resolve? (code.scopeOr env) name ∧
        ∀ accept, later.resolveWhere? e name accept =
          later.resolveWhere? (code.scopeOr env) name accept := by
  intro out
  suffices htrace : s.heap.LeavesNoTrace (code.scopeOr env) out.2.heap ∧
      ∀ v, out.1 = .ok v → ∀ e ∈ v.handles, e = s.heap.newBottom ∨ e = s.heap.newMask →
        out.2.heap.isLive e by
    exact ⟨htrace.1, htrace.2, fun later hsame e he hl name =>
      htrace.1.resolve hsame he hl name⟩
  have hrun : out = inOwnMask (·.maskOf data (code.scopeOr env)) Heap.stripMask
      (code.body.eval mode) s := evalWithData_of_isPlainData mode code env hdata
  rcases hb : s.heap.maskOf data (code.scopeOr env) with err | ⟨mask, heap⟩
  · rw [inOwnMask_error hb] at hrun
    rw [hrun]
    exact ⟨.refl s.heap _, fun v hv => by cases hv⟩
  · obtain ⟨rfl, hfresh⟩ := Heap.freshMask_maskOf hb
    have hset := (Heap.growsByMask_maskOf hscope hb).settled hs
    have hstrip := hfresh.stripMask
    rw [inOwnMask_ok hb hset (code.body.putsBack_eval mode _)] at hrun
    rw [hrun]
    refine ⟨hstrip.leavesNoTrace hs (List.subset_append_right _ _), fun v hv e he hnew => ?_⟩
    have hkept : e ∈ keptBy (.ok v) ++ s.held := List.mem_append_left _ he
    simp only at hv
    simp only [hv]
    apply Heap.isLive_sweep_of_mem hkept
    rcases hnew with rfl | rfl
    · rw [Heap.isLive, hstrip.bottom]
      rfl
    · rw [Heap.isLive, hstrip.mask]
      rfl

/-- The code of a formula over one variable. -/
def Expr.sampleFormula : Expr := .call (.symbol .tilde) (.cons (.symbol ⟨12⟩) .nil)

/-- A list of that variable. -/
def Value.sampleData : Value := .list .plain (.cons (some ⟨12⟩) (.int 1) .nil)

/-- The formula holds the mask ⟨3⟩ that it was made in, which shows the variable no more. -/
theorem evalWithData_leavesNoTrace_sample :
    State.initial.heap.Settled State.initial.held ∧
      State.initial.heap.IsPlainData .sampleData ∧
      let out := evalWithData .unlimited (.code .sampleFormula) .sampleData .global .initial
      State.initial.heap.LeavesNoTrace .global out.2.heap ∧
        (out.1.toOption.map Value.handles = some [⟨3⟩] ∧ out.2.heap.isLive ⟨3⟩) ∧
        out.2.heap.resolve? ⟨3⟩ ⟨12⟩ = out.2.heap.resolve? .global ⟨12⟩ := by
  have hlive : (evalWithData .unlimited (.code .sampleFormula) .sampleData .global
      .initial).2.heap.isLive ⟨3⟩ := by decide +kernel
  have hholds : (evalWithData .unlimited (.code .sampleFormula) .sampleData .global
      .initial).1.toOption.map Value.handles = some [⟨3⟩] := by decide +kernel
  obtain ⟨htrace, -, hsees⟩ := @evalWithData_leavesNoTrace .unlimited (.code .sampleFormula)
    .sampleData .global .initial State.sound_initial.settled trivial (by decide)
  refine ⟨State.sound_initial.settled, trivial, htrace, ⟨hholds, hlive⟩, ?_⟩
  exact (hsees _ (fun _ _ _ => rfl) ⟨3⟩ (by decide) hlive ⟨12⟩).1

end Overscope
