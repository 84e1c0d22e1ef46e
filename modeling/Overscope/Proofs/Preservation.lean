-- Invariants that hold at each evaluation on the way. An evaluation changes the scope graph by
-- splicing alone, and splices nothing but scopes: those of the code itself, and those that
-- an overscope has as its `.env`. It goes on in the same environment, or in the mask of an
-- override that was found there. So an invariant that is kept by one such splice, and by
-- a call deeper, is kept by all that is evaluated in the environments that lead to no others.
import Overscope.Proofs.Nesting

namespace Overscope

/-- An invariant that each step of an evaluation keeps, in the environments of `A`. The
overrides that are found there satisfy `R`, and lead to no other environments. The scopes that
are spliced in satisfy `T`, if those of the code do. -/
structure Preserved (A : EnvId → Prop) (I : State → Prop) (R : Override → Prop)
    (T : EnvId → Prop) : Prop extends Invariant I where
  nested : ∀ {s}, I s → I { s with depth := s.depth + 1 }
  override : ∀ {s head env o}, I s → A env →
    (Head.resolve head env s).1 = .ok (.override o) → R o
  mask : ∀ {o}, R o → A o.mask
  scope : ∀ {s overscope e}, I s → s.heap.local? overscope .env = some (.env e) → T e
  spliced : ∀ {s overscope top target}, I s → R ⟨overscope, top⟩ → T target →
    s.heap.hasAncestor target top = false → I (s.spliced overscope top target)

/-- All that the step visits is in the environments of `A`, and in states where the invariant
holds. -/
def Preserves {α : Type} (A : EnvId → Prop) (I : State → Prop) (x : Traced α) : Prop :=
  Course I (fun _ => True) (fun v => A v.env ∧ I v.state) x

/-- An override goes on in its own frames. -/
theorem Override.frames_eq {o : Override} {s : State} {frames : EnvId × EnvId}
    (h : (o.frames s).1 = .ok frames) : frames = (o.mask, o.top) := by
  simp only [Override.frames, Attempt.bind_run, Attempt.read] at h
  split at h
  · cases h
    rfl
  · cases h

/-- An override that a head stands for is bound in some frame to the name at the head. -/
theorem Head.exists_local?_of_resolve {head : Head} {env : EnvId} {s : State} {o : Override}
    (ho : (head.resolve env s).1 = .ok (.override o)) :
    ∃ e name, head = .symbol name ∧ s.heap.local? e name = some (.override o) := by
  cases head with
  | inlined p => cases ho
  | symbol name =>
    simp only [Head.resolve, Attempt.bind_run, Attempt.read] at ho
    rcases hv : s.heap.resolveWhere? env name Value.isCallable with _ | v
    · rw [hv] at ho
      cases ho
    · rw [hv] at ho
      obtain ⟨e, -, he⟩ := List.exists_of_findSome?_eq_some hv
      have hlocal := Option.eq_some_of_filter_eq_some he
      cases v with
      | override o' =>
        cases ho
        exact ⟨e, name, rfl, hlocal⟩
      | builtin p => cases ho
      | _ => cases ho

variable {A : EnvId → Prop} {I : State → Prop} {R : Override → Prop} {T : EnvId → Prop}

/-- A quosure goes on in its own scope or in the `.env` of the overscope. -/
theorem Preserved.target (hI : Preserved A I R T) {s : State} (hs : I s) {own : Option EnvId}
    (hown : ∀ e ∈ own, T e) {overscope target : EnvId}
    (ht : (targetScope own overscope s).1 = .ok target) : T target := by
  cases own with
  | some e =>
    cases ht
    exact hown _ rfl
  | none =>
    simp only [targetScope, localEnv, Attempt.bind_run, Attempt.read] at ht
    rcases hv : s.heap.local? overscope .env with _ | v
    · rw [hv] at ht
      cases ht
    · rw [hv] at ht
      cases v with
      | env f =>
        cases ht
        exact hI.scope hs hv
      | _ => cases ht

/-! ## Calls -/

namespace TracedSite

variable (hI : Preserved A I R T) {site : TracedSite} {mode : Mode}
  (hback : ∀ op ∈ site.bare.operands, op.PutsBack)
  (hops : ∀ op ∈ site.operands, ∀ env, A env → Preserves A I (op.run env))

include hI hops

theorem preserves_evalQuosure {own : Option EnvId} (hown : ∀ e ∈ own, T e) {overscope top : EnvId}
    (hr : R ⟨overscope, top⟩) : Preserves A I (site.evalQuosure own overscope top) := by
  apply course_evalQuosure hI.toInvariant (fun op hop => hops op hop overscope (hI.mask hr))
  · exact fun _ _ => trivial
  · exact course_silent (putsBack_targetScope own overscope) fun _ _ _ => trivial
  · rintro target ⟨s₀, hs₀, hrun⟩ s hs
    split
    · trivial
    · next hoff => exact hI.spliced hs hr (hI.target hs₀ hown hrun) (Bool.eq_false_iff.2 hoff)

include hback

theorem preserves_toFormula {env : EnvId} (henv : A env) :
    Preserves A I (site.toFormula mode env) :=
  course_toFormula hI.toInvariant hI.toInvariant ordinary_true hback (fun hs => hI.nested hs)
    (fun op hop => hops op hop env henv) fun _ _ hs => ⟨henv, hs⟩

variable (hown : ∀ f ∈ site.object, ∀ e ∈ f.env, T e)

include hown

theorem preserves_overridden {overscope top : EnvId} (hr : R ⟨overscope, top⟩) :
    Preserves A I (site.overridden mode overscope top) := by
  apply course_overridden (preserves_toFormula hI hback hops (hI.mask hr))
  intro head args own hobject
  exact preserves_evalQuosure hI hops (hown _ hobject) hr

theorem preserves_eval {env : EnvId} (henv : A env) : Preserves A I (site.eval mode env) := by
  apply course_eval hI.toInvariant ordinary_true hback (fun hs => hI.nested hs)
  · intro p
    exact course_apply hI.toInvariant ordinary_true hback (fun op hop => hops op hop env henv) p
  · rintro o ⟨s, hs, ho⟩
    have hframes : Preserves A I (.silent o.frames) :=
      course_silent (putsBack_frames o) fun _ _ _ => trivial
    apply course_bind_of_result hI.toInvariant hframes
    · intro frames
      rw [run_overridden]
      exact CallSite.putsBack_overridden hback mode frames.1 frames.2
    · rintro frames ⟨s', -, hrun⟩
      rw [Override.frames_eq hrun]
      exact preserves_overridden hI hback hops hown (hI.override hs henv ho)

end TracedSite

/-! ## Code and values -/

mutual

/-- The invariant holds at each evaluation on the way, if the scopes that the code holds may
be spliced in. -/
theorem Expr.preserves_trace (hI : Preserved A I R T) (mode : Mode) (e : Expr)
    (hmade : ∀ x ∈ e.handles, T x) {env : EnvId} (henv : A env) :
    Preserves A I (e.trace mode env) := by
  cases e with
  | const v => exact v.preserves_traceInlined hI mode hmade henv
  | symbol name =>
    refine course_evaluates ?_ fun hs => ⟨henv, hs⟩
    exact course_silent ((Expr.symbol name).putsBack_eval mode env) fun _ _ _ => trivial
  | call head args =>
    refine course_evaluates ?_ fun hs => ⟨henv, hs⟩
    refine TracedSite.preserves_eval hI (args.putsBack_site mode head _)
      (args.preserves_traced hI mode hmade) (fun f hf => ?_) henv
    cases hf
  | missing => exact course_evaluates (course_pure _) fun hs => ⟨henv, hs⟩

theorem Value.preserves_traceInlined (hI : Preserved A I R T) (mode : Mode) (v : Value)
    (hmade : ∀ x ∈ v.handles, T x) {env : EnvId} (henv : A env) :
    Preserves A I (v.traceInlined mode env) := by
  cases v with
  | formula head args own kind =>
    have hparts := fun x hx => hmade x (mem_joinHandles.2 hx)
    refine course_evaluates ?_ fun hs => ⟨henv, hs⟩
    refine TracedSite.preserves_eval hI (args.putsBack_site mode head _)
      (args.preserves_traced hI mode fun x hx => hparts x (Or.inr hx)) (fun f hf e he => ?_) henv
    cases hf
    exact hparts e (Or.inl (Option.mem_toList.2 he))
  | _ => exact course_evaluates (course_pure _) fun hs => ⟨henv, hs⟩

theorem Args.preserves_traced (hI : Preserved A I R T) (mode : Mode) (args : Args)
    (hmade : ∀ x ∈ args.handles, T x) :
    ∀ op ∈ args.traced mode, ∀ env, A env → Preserves A I (op.run env) := by
  cases args with
  | nil => exact fun _ hop => absurd hop List.not_mem_nil
  | cons e rest =>
    rw [Args.traced, List.forall_mem_cons]
    rw [Args.handles] at hmade
    have hparts := fun x hx => hmade x (mem_joinHandles.2 hx)
    exact ⟨fun env => e.preserves_trace hI mode (fun x hx => hparts x (Or.inl hx)),
      rest.preserves_traced hI mode fun x hx => hparts x (Or.inr hx)⟩

end

namespace Value

variable (hI : Preserved A I R T) (mode : Mode) (v : Value) (hmade : ∀ x ∈ v.handles, T x)

include hI hmade

/-- The operands of the call that a value stands for, and its scope. -/
theorem preserves_tracedSite? {site : TracedSite} (hv : v.tracedSite? mode = some site) :
    (∀ op ∈ site.bare.operands, op.PutsBack) ∧
      (∀ op ∈ site.operands, ∀ env, A env → Preserves A I (op.run env)) ∧
      ∀ f ∈ site.object, ∀ e ∈ f.env, T e := by
  cases v with
  | formula head args own kind =>
    cases hv
    have hparts := fun x hx => hmade x (mem_joinHandles.2 hx)
    refine ⟨args.putsBack_site mode head _, args.preserves_traced hI mode fun x hx =>
      hparts x (Or.inr hx), fun f hf e he => ?_⟩
    cases hf
    exact hparts e (Or.inl (Option.mem_toList.2 he))
  | code e =>
    cases e with
    | call head args =>
      cases hv
      refine ⟨args.putsBack_site mode head _, args.preserves_traced hI mode hmade, fun f hf => ?_⟩
      cases hf
    | _ => cases hv
  | _ => cases hv

theorem preserves_traceTilde {overscope top : EnvId} (hr : R ⟨overscope, top⟩) :
    Preserves A I (v.traceTilde mode overscope top) := by
  unfold traceTilde
  split
  · next site hsite =>
    obtain ⟨hback, hops, hown⟩ := v.preserves_tracedSite? hI mode hmade hsite
    exact TracedSite.preserves_overridden hI hback hops hown hr
  · exact course_silent (putsBack_fail _) fun _ _ _ => trivial

theorem preserves_traceFormula {env : EnvId} (henv : A env) :
    Preserves A I (v.traceFormula mode env) := by
  unfold traceFormula
  split
  · next site hsite =>
    obtain ⟨hback, hops, -⟩ := v.preserves_tracedSite? hI mode hmade hsite
    exact TracedSite.preserves_toFormula hI hback hops henv
  · exact course_silent (putsBack_fail _) fun _ _ _ => trivial

end Value

end Overscope
