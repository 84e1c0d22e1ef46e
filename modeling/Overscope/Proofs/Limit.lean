-- The limit of the depth. It only cuts: an evaluation that does not get deeper than the limit
-- is the one without a limit, and a deeper one fails and leaves nothing behind, apart from
-- the scope that an existing mask was pointed at. No code gets deeper than twice its height.
import Overscope.Proofs.DataEval
import Overscope.Proofs.Nesting
import Overscope.Proofs.OwnMask

namespace Overscope

/-! ## What a failure in a mask of its own leaves -/

/-- No frame is another one. Frames that were made meanwhile are dead. -/
structure State.Restored (s s' : State) : Prop where
  frame : ∀ e, s'.heap.frame? e = s.heap.frame? e
  depth : s'.depth = s.depth
  held : s'.held = s.held
  memo : s.memo.Extends s'.memo

namespace Heap

/-- New frames that hold older ones alone do not outlive their holder. -/
theorem frame?_sweep_of_new {h t : Heap} {held : List EnvId}
    (hmade : ∀ x ∈ h.handles ++ held, x.index < h.size)
    (hold : ∀ e, e.index < h.size → t.frame? e = h.frame? e)
    (hnew : ∀ e f, h.size ≤ e.index → t.frame? e = some f → ∀ x ∈ f.handles, x.index < e.index)
    {e : EnvId} (he : h.size ≤ e.index) : (t.sweep held).frame? e = none := by
  -- A holder would be a newer frame, and so on without an end.
  induction hn : t.size - e.index using Nat.strong_induction_on generalizing e with
  | _ n ih =>
    by_contra hlive
    have hlive' : (t.sweep held).isLive e := Option.isSome_iff_ne_none.2 hlive
    have hsize := index_lt_size hlive'
    rw [size_sweep] at hsize
    rcases settled_iff.1 (settled_sweep t held) e hlive' with hin | hin
    · obtain ⟨g, f, hf, hef⟩ := mem_handles_iff.1 hin
      have htf : t.frame? g = some f := frame?_of_sweep hf
      rcases Nat.lt_or_ge g.index h.size with hg | hg
      · rw [hold g hg] at htf
        have hlt := hmade e (List.mem_append_left _ (mem_handles_iff.2 ⟨g, f, htf, hef⟩))
        omega
      · have hlt := hnew g f hg htf e hef
        have hdead := ih (t.size - g.index) (by omega) hg rfl
        rw [hdead] at hf
        cases hf
    · exact absurd he (Nat.not_le.2 (hmade e (List.mem_append_right _ hin)))

end Heap

/-- A mask of its own that is built and taken down around a failure is gone. -/
theorem restored_inOwnMask {build : Heap → Except EvalError (EnvId × Heap)}
    {takeDown : Heap → EnvId → Heap} {body : EnvId → EvalM Value} {s : State}
    (hs : s.heap.Settled s.held) (hmade : ∀ x ∈ s.heap.handles ++ s.held, x.index < s.heap.size)
    (hback : ∀ mask, PutsBack (body mask))
    (hbuild : ∀ mask h, build s.heap = .ok (mask, h) → h.Settled (mask :: s.held) ∧
      (∀ e, e.index < s.heap.size → (takeDown h mask).frame? e = s.heap.frame? e) ∧
      ∀ e f, s.heap.size ≤ e.index → (takeDown h mask).frame? e = some f →
        ∀ x ∈ f.handles, x.index < e.index)
    {err : EvalError} (herr : (inOwnMask build takeDown body s).1 = .error err) :
    s.Restored (inOwnMask build takeDown body s).2 := by
  rcases hb : build s.heap with err' | ⟨mask, h⟩
  · rw [inOwnMask_error hb]
    exact ⟨fun _ => rfl, rfl, rfl, s.memo.extends_refl⟩
  · obtain ⟨hset, hold, hnew⟩ := hbuild mask h hb
    have hlearns := hback mask { s with heap := h, held := mask :: s.held } hset
    have hrun := @inOwnMask_ok build takeDown body s mask h hb hset (hback mask)
    simp only at hrun
    rw [hrun] at herr ⊢
    simp only at herr
    simp only [herr, keptBy, List.nil_append]
    refine ⟨fun e => ?_, rfl, rfl, Memo.extends_of_gains hlearns.memo⟩
    rcases Nat.lt_or_ge e.index s.heap.size with he | he
    · exact Heap.frame?_sweep_of_old hs hold (List.Subset.refl _) e he
    · rw [Heap.frame?_eq_none he]
      exact Heap.frame?_sweep_of_new hmade hold hnew he

namespace Heap

/-- A new mask without data holds its scope alone. -/
theorem handles_lt_of_addQuosureMask {h : Heap} {scope : EnvId} (hscope : scope.index < h.size)
    {e : EnvId} {f : Frame} (he : h.size ≤ e.index)
    (hf : (h.addQuosureMask scope).2.frame? e = some f) : ∀ x ∈ f.handles, x.index < e.index := by
  rw [frame?_addQuosureMask, frame?_eq_none he] at hf
  split at hf
  · cases hf
    intro x hx
    have hx' : x ∈ [scope, scope] := hx
    have heq : x = scope := by simpa using hx'
    rw [heq]
    exact Nat.lt_of_lt_of_le hscope he
  · cases hf

/-- What is left of a mask holds the scope, and its one frame the other. -/
theorem StrippedMask.handles_lt {h t : Heap} {scope : EnvId} (ht : h.StrippedMask scope t)
    (hscope : scope.index < h.size) {e : EnvId} {f : Frame} (he : h.size ≤ e.index)
    (hf : t.frame? e = some f) : ∀ x ∈ f.handles, x.index < e.index := by
  have hlive : t.isLive e := by rw [isLive, hf]; rfl
  intro x hx
  rcases eq_newBottom_or_newMask ht.size he hlive with rfl | rfl
  · rw [ht.bottom] at hf
    cases hf
    obtain rfl : x = scope := List.mem_singleton.1 hx
    exact hscope
  · rw [ht.mask] at hf
    cases hf
    obtain rfl : x = h.newBottom := List.mem_singleton.1 hx
    exact Nat.lt_succ_self _

end Heap

theorem restored_evalInOwnMask (mode : Mode) (e : Expr) (data : Value) {scope : EnvId} {s : State}
    (hs : s.heap.Settled s.held) (hmade : ∀ x ∈ s.heap.handles ++ s.held, x.index < s.heap.size)
    (hscope : scope.index < s.heap.size) {err : EvalError}
    (herr : (evalInOwnMask mode e data scope s).1 = .error err) :
    s.Restored (evalInOwnMask mode e data scope s).2 := by
  unfold evalInOwnMask at herr ⊢
  split at herr
  · refine restored_inOwnMask hs hmade (e.putsBack_eval mode) (fun mask h hb => ?_) herr
    cases hb
    have hgrows := Heap.growsByMask_addQuosureMask hscope
    exact ⟨hgrows.settled hs, hgrows.grows.frame,
      fun _ _ he hf => Heap.handles_lt_of_addQuosureMask hscope he hf⟩
  · refine restored_inOwnMask hs hmade (e.putsBack_eval mode) (fun mask h hb => ?_) herr
    obtain ⟨rfl, hfresh⟩ := Heap.freshMask_maskOf hb
    have hstrip := hfresh.stripMask
    exact ⟨(Heap.growsByMask_maskOf hscope hb).settled hs, hstrip.old,
      fun _ _ he hf => hstrip.handles_lt hscope he hf⟩

/-- What is left when an evaluation against data failed: the scope that an existing mask was
pointed at, and otherwise nothing. -/
def State.BackFromData (s : State) (code data : Value) (env : EnvId) (s' : State) : Prop :=
  match data.env?.filter s.heap.isMask with
  | some mask => (pointMask mask (code.scopeOr env) s).2.OnlyLearned s'
  | none => s.Restored s'

theorem backFromData_evalWithData (mode : Mode) (code data : Value) {env : EnvId} {s : State}
    (hs : s.heap.Settled s.held) (hmade : ∀ x ∈ s.heap.handles ++ s.held, x.index < s.heap.size)
    (hscope : (code.scopeOr env).index < s.heap.size) {err : EvalError}
    (herr : (evalWithData mode code data env s).1 = .error err) :
    s.BackFromData code data env (evalWithData mode code data env s).2 := by
  unfold State.BackFromData
  unfold evalWithData at herr ⊢
  simp only [Attempt.bind_run, Attempt.read] at herr ⊢
  rcases hfound : data.env?.filter s.heap.isMask with _ | mask
  · simp only [hfound] at herr ⊢
    exact restored_evalInOwnMask mode code.body data hs hmade hscope herr
  · simp only [evalInMask]
    rcases pointMask_run mask (code.scopeOr env) s with ⟨err', hrun⟩ | ⟨top, -, -, hrun⟩
    · rw [Attempt.bind_run_error hrun, hrun]
      exact (State.LearnsTo.refl s).onlyLearned
    · rw [Attempt.bind_run_ok hrun, hrun]
      refine State.LearnsTo.onlyLearned (code.body.putsBack_eval mode mask _ ?_)
      exact Heap.settled_sweep _ _

/-! ## How deep an evaluation against data gets -/

/-- The mask costs nothing: it is as deep as the evaluation in it. -/
theorem level_le_of_traceWithData (mode : Mode) {code data : Value} {env : EnvId} {s : State}
    (hs : s.heap.Settled s.held) (hscope : (code.scopeOr env).index < s.heap.size) :
    ∀ v ∈ (traceWithData mode code data env).visits s,
      v.level ≤ s.depth + 2 * code.body.height := by
  have hbody : ∀ mask, ∀ t : State, t.heap.Settled t.held → t.depth = s.depth →
      ∀ v ∈ (code.body.trace mode mask).visits t, v.level ≤ s.depth + 2 * code.body.height :=
    fun mask t ht hdepth =>
      (code.body.shallow_trace mode (Nat.le_refl _) mask).visits ⟨ht, hdepth⟩
  have hown : ∀ (build : Heap → Except EvalError (EnvId × Heap)) (takeDown : Heap → EnvId → Heap),
      (∀ mask h, build s.heap = .ok (mask, h) → h.Settled (mask :: s.held)) →
      ∀ v ∈ (traceInOwnMask build takeDown (code.body.trace mode)).visits s,
        v.level ≤ s.depth + 2 * code.body.height := by
    intro build takeDown hbuild
    simp only [traceInOwnMask]
    split
    · exact List.forall_mem_nil _
    · next mask h hb => exact hbody mask _ (hbuild mask h hb) rfl
  rcases hfound : data.env?.filter s.heap.isMask with _ | mask
  · rw [visits_traceWithData_of_none hfound]
    unfold traceInData
    split
    · refine hown _ _ fun mask h hb => ?_
      cases hb
      exact (Heap.growsByMask_addQuosureMask hscope).settled hs
    · exact hown _ _ fun mask h hb => (Heap.growsByMask_maskOf hscope hb).settled hs
  · rw [visits_traceWithData_of_some hfound]
    rcases pointMask_run mask (code.scopeOr env) s with ⟨err, hrun⟩ | ⟨top, -, -, hrun⟩
    · rw [Traced.visits_silent_bind_error hrun]
      exact List.forall_mem_nil _
    · rw [Traced.visits_silent_bind_ok hrun]
      refine hbody mask _ ?_ rfl
      exact Heap.settled_sweep _ _

/-! ## The limit -/

/-- A limit only cuts the evaluation `x`. Without one, as `t` records it, its calls get as deep
as `peak`. If that is within the limit, the limit makes no difference. Otherwise the
evaluation fails because of it, and the state is `Back`. The code is of the given height. -/
structure LimitCuts (x : Mode → EvalM Value) (t : Traced Value) (height : Nat) (s : State)
    (Back : State → Prop) : Prop where
  traced : t.run = x .unlimited
  same : ∀ limit, peak (t.visits s) ≤ limit → x (.restricted limit) s = x .unlimited s
  cut : ∀ limit, limit < peak (t.visits s) →
    (x (.restricted limit) s).1 = .error (.recursionLimit limit) ∧ Back (x (.restricted limit) s).2
  /-- Above a limit that makes no difference to the outcome none makes a difference. -/
  mono : ∀ limit limit', limit ≤ limit' → (x (.restricted limit) s).1 = (x .unlimited s).1 →
    x (.restricted limit') s = x .unlimited s
  peak_le : peak (t.visits s) ≤ s.depth + 2 * height
  enough : ∀ limit, s.depth + 2 * height ≤ limit →
    ∀ limit', (x (.restricted limit) s).1 ≠ .error (.recursionLimit limit')

theorem limitCuts_of_cut {x : Mode → EvalM Value} {t : Traced Value} {height : Nat} {s : State}
    {Back : State → Prop} (hrun : t.run = x .unlimited)
    (hcut : ∀ limit, Cut limit t (x (.restricted limit)))
    (hlevel : ∀ v ∈ t.visits s, v.level ≤ s.depth + 2 * height)
    (hback : ∀ limit err, (x (.restricted limit) s).1 = .error err →
      Back (x (.restricted limit) s).2) :
    LimitCuts x t height s Back := by
  have hsame : ∀ limit, peak (t.visits s) ≤ limit → x (.restricted limit) s = x .unlimited s ∧
      ∀ limit', (x .unlimited s).1 ≠ .error (.recursionLimit limit') := by
    intro limit hp
    rcases hcut limit s with ⟨-, heq, herr⟩ | ⟨hdeep, -⟩
    · rw [hrun] at heq herr
      exact ⟨heq, fun limit' h => herr _ h limit' rfl⟩
    · exact absurd hp (Nat.not_le.2 (lt_peak_iff.2 hdeep))
  have hfail : ∀ limit, limit < peak (t.visits s) →
      (x (.restricted limit) s).1 = .error (.recursionLimit limit) := by
    intro limit hp
    rcases hcut limit s with ⟨hlow, -⟩ | ⟨-, hfail⟩
    · exact absurd hp (Nat.not_lt.2 (peak_le_iff.2 hlow))
    · exact hfail
  have hpeak : peak (t.visits s) ≤ s.depth + 2 * height := peak_le_iff.2 hlevel
  have hfree := (hsame _ (Nat.le_refl _)).2
  refine ⟨hrun, fun limit hp => (hsame limit hp).1, fun limit hp => ?_, fun limit limit' hl h => ?_,
    hpeak, fun limit hb limit' => ?_⟩
  · exact ⟨hfail limit hp, hback limit _ (hfail limit hp)⟩
  · rcases Nat.lt_or_ge limit (peak (t.visits s)) with hp | hp
    · rw [hfail limit hp] at h
      exact absurd h.symm (hfree limit)
    · exact (hsame limit' (Nat.le_trans hp hl)).1
  · rw [(hsame limit (Nat.le_trans hpeak hb)).1]
    exact hfree limit'

/-- The limit of the depth only cuts evaluation, and that of a `~` call in an overscope or by
the base `~`, from any scope graph, with cycles or without, where every live frame has a
holder. After a failure because of the limit no more is new than what was learned. The same
holds of evaluation against data, if no frame is named that was not made: then a new mask is
gone, and an existing one is pointed at the scope. -/
theorem limit_cuts {s : State} (hs : s.heap.Settled s.held) :
    (∀ (e : Expr) (env : EnvId),
      LimitCuts (fun mode => e.eval mode env) (e.trace .unlimited env) e.height s s.OnlyLearned) ∧
    (∀ (v : Value) (overscope top : EnvId),
      LimitCuts (fun mode => v.evalTilde mode overscope top) (v.traceTilde .unlimited overscope top)
        v.toExpr.height s s.OnlyLearned) ∧
    (∀ (v : Value) (env : EnvId),
      LimitCuts (fun mode => v.toFormula mode env) (v.traceFormula .unlimited env)
        v.toExpr.height s s.OnlyLearned) ∧
    ∀ (code data : Value) (env : EnvId), (code.scopeOr env).index < s.heap.size →
      (∀ x ∈ s.heap.handles ++ s.held, x.index < s.heap.size) →
      LimitCuts (fun mode => evalWithData mode code data env)
        (traceWithData .unlimited code data env) code.body.height s
        (s.BackFromData code data env) := by
  have hdepth : s.AtDepth s.depth := ⟨hs, rfl⟩
  refine ⟨fun e env => ?_, fun v overscope top => ?_, fun v env => ?_,
    fun code data env hscope hmade => ?_⟩
  · exact limitCuts_of_cut (e.run_trace .unlimited env) (fun limit => e.cut_trace limit env)
      ((e.shallow_trace .unlimited (Nat.le_refl _) env).visits hdepth)
      fun limit _ _ => (e.putsBack_eval (.restricted limit) env s hs).onlyLearned
  · exact limitCuts_of_cut (v.run_traceTilde .unlimited overscope top)
      (fun limit => v.cut_traceTilde limit overscope top)
      ((v.shallow_traceTilde .unlimited (Nat.le_refl _) overscope top).visits hdepth)
      fun limit _ _ => (v.putsBack_evalTilde (.restricted limit) overscope top s hs).onlyLearned
  · exact limitCuts_of_cut (v.run_traceFormula .unlimited env)
      (fun limit => v.cut_traceFormula limit env)
      ((v.shallow_traceFormula .unlimited (Nat.le_refl _) env).visits hdepth)
      fun limit _ _ => (v.putsBack_toFormula (.restricted limit) env s hs).onlyLearned
  · exact limitCuts_of_cut (run_traceWithData .unlimited code data env)
      (fun limit => cut_traceWithData limit code data env)
      (level_le_of_traceWithData .unlimited hs hscope)
      fun limit _ herr =>
        backFromData_evalWithData (.restricted limit) code data hs hmade hscope herr

/-- A formula over one variable, which is of height one: against data its evaluation gets two
levels deep, so the bound is met. -/
theorem limit_cuts_sample :
    State.initial.heap.Settled State.initial.held ∧
      (Value.code .sampleFormula).body.height = 1 ∧
      peak ((traceWithData .unlimited (.code .sampleFormula) .sampleData .global).visits
        .initial) = 2 ∧
      LimitCuts (fun mode => evalWithData mode (.code .sampleFormula) .sampleData .global)
        (traceWithData .unlimited (.code .sampleFormula) .sampleData .global) 1 .initial
        (State.initial.BackFromData (.code .sampleFormula) .sampleData .global) ∧
      (evalWithData (.restricted 1) (.code .sampleFormula) .sampleData .global .initial).1 =
        .error (.recursionLimit 1) := by
  have hcuts := (limit_cuts State.sound_initial.settled).2.2.2 (.code .sampleFormula) .sampleData
    .global (by decide) (by decide)
  have hpeak : peak ((traceWithData .unlimited (.code .sampleFormula) .sampleData .global).visits
      .initial) = 2 := by decide +kernel
  exact ⟨State.sound_initial.settled, rfl, hpeak, hcuts, (hcuts.cut 1 (by rw [hpeak]; decide)).1⟩

end Overscope
