-- The course of an evaluation, from the states where an invariant holds: what it puts back,
-- the errors with which it can end, and what is true of each evaluation that is started on
-- the way. Each step has its law, so a law of whole evaluations is one of the steps that
-- differ.
import Overscope.Proofs.Steps

namespace Overscope

variable {α β : Type}

/-- An invariant of states where every frame has a holder, which does not look at what was
learned. -/
structure Invariant (I : State → Prop) : Prop where
  settled : ∀ {s}, I s → s.heap.Settled s.held
  learns : ∀ {s s'}, I s → s.LearnsTo s' → I s'

/-- Errors of operators and operands, and those of a limit, are among the given ones. -/
structure Ordinary (E : EvalError → Prop) : Prop where
  plain : ∀ {err : EvalError}, err.isPlain → E err
  limit : ∀ limit, E (.recursionLimit limit)

/-- From where `I` holds the step fails in the ways `E` alone, and what it visits is as `Q`
says. -/
structure Course (I : State → Prop) (E : EvalError → Prop) (Q : Visit → Prop) (x : Traced α) :
    Prop where
  putsBack : PutsBack x.run
  fails : ∀ {s}, I s → ∀ {err}, (x.run s).1 = .error err → E err
  visits : ∀ {s}, I s → ∀ v ∈ x.visits s, Q v

variable {I J : State → Prop} {E : EvalError → Prop} {Q : Visit → Prop}

/-! ## Steps -/

theorem course_silent {x : EvalM α} (hback : PutsBack x)
    (hfails : ∀ {s}, I s → ∀ {err}, (x s).1 = .error err → E err) : Course I E Q (.silent x) :=
  ⟨hback, hfails, nofun⟩

theorem course_pure (a : α) : Course I E Q (pure a) :=
  course_silent (putsBack_pure a) fun _ _ h => by cases h

/-- A step that fails with plain errors alone. -/
theorem course_plain (hE : Ordinary E) {x : EvalM α}
    (hback : PutsBack x) (hx : Plain x) : Course I E Q (.silent x) :=
  course_silent hback fun {s} _ {err} h => hE.plain (hx s err h)

/-- Of the result of the first step one knows that it came from where `I` holds. -/
theorem course_bind_of_result (hI : Invariant I) {x : Traced α} {f : α → Traced β}
    (hx : Course I E Q x) (hback : ∀ a, PutsBack (f a).run)
    (hf : ∀ a, (∃ s, I s ∧ (x.run s).1 = .ok a) → Course I E Q (f a)) : Course I E Q (x >>= f) where
  putsBack := putsBack_bind hx.putsBack hback
  fails {s} hs {err} h := by
    rw [Traced.run_bind, Attempt.bind_run] at h
    rcases hr : x.run s with ⟨e | a, s'⟩
    · rw [hr] at h
      cases h
      exact hx.fails hs (by rw [hr])
    · rw [hr] at h
      have hs' := hI.learns hs (hx.putsBack s (hI.settled hs))
      rw [hr] at hs'
      exact (hf a ⟨s, hs, by rw [hr]⟩).fails hs' h
  visits {s} hs v hv := by
    rcases hr : x.run s with ⟨e | a, s'⟩
    · rw [Traced.visits_bind_error hr] at hv
      exact hx.visits hs v hv
    · rw [Traced.visits_bind_ok hr] at hv
      have hs' := hI.learns hs (hx.putsBack s (hI.settled hs))
      rw [hr] at hs'
      rcases List.mem_append.1 hv with hv | hv
      · exact hx.visits hs v hv
      · exact (hf a ⟨s, hs, by rw [hr]⟩).visits hs' v hv

theorem course_bind (hI : Invariant I) {x : Traced α} {f : α → Traced β} (hx : Course I E Q x)
    (hf : ∀ a, Course I E Q (f a)) : Course I E Q (x >>= f) :=
  course_bind_of_result hI hx (fun a => (hf a).putsBack) fun a _ => hf a

theorem course_evaluates {e : Expr} {env : EnvId} {x : Traced α} (hx : Course I E Q x)
    (hQ : ∀ {s}, I s → Q ⟨e, env, s⟩) : Course I E Q (.evaluates e env x) where
  putsBack := hx.putsBack
  fails := hx.fails
  visits {s} hs := by
    rw [Traced.evaluates, List.forall_mem_cons]
    exact ⟨hQ hs, hx.visits hs⟩

/-- A step in a state that is prepared for it. -/
theorem course_inside {prepare : (γ : Type) → EvalM γ → EvalM γ} {x : Traced α}
    (hback : PutsBack (prepare α x.run))
    (hprepare : ∀ {s}, I s → (∃ t, Prepares prepare s (.ok t) ∧ J t) ∨
      ∃ err, Prepares prepare s (.error err) ∧ E err)
    (hx : Course J E Q x) : Course I E Q (.inside prepare x) where
  putsBack := hback
  fails {s} hs {err} h := by
    rw [Traced.run_inside] at h
    rcases hprepare hs with ⟨t, ⟨back, hrun⟩, ht⟩ | ⟨err', ⟨s', hrun⟩, herr⟩
    · rw [hrun] at h
      exact hx.fails ht h
    · rw [hrun] at h
      cases h
      exact herr
  visits {s} hs v hv := by
    rcases hprepare hs with ⟨t, hok, ht⟩ | ⟨err, herr, -⟩
    · rw [visits_inside_ok hok] at hv
      exact hx.visits ht v hv
    · rw [visits_inside_error herr] at hv
      cases hv

/-- One call deeper. -/
theorem course_nested (hE : Ordinary E) {mode : Mode} {x : Traced α}
    (hnest : ∀ {s}, I s → J { s with depth := s.depth + 1 }) (hx : Course J E Q x) :
    Course I E Q (.inside (fun _ => nested mode) x) := by
  refine course_inside (putsBack_nested mode hx.putsBack) (fun {s} hs => ?_) hx
  rcases prepares_nested mode s with hok | ⟨limit, herr⟩
  · exact Or.inl ⟨_, hok, hnest hs⟩
  · exact Or.inr ⟨_, herr, hE.limit limit⟩

/-! ## Calls -/

theorem course_traceOperands (hI : Invariant I) {ops : List TracedOperand} {env : EnvId}
    (hops : ∀ op ∈ ops, Course I E Q (op.run env)) : Course I E Q (traceOperands ops env) := by
  induction ops with
  | nil => exact course_pure []
  | cons op ops ih =>
    rw [List.forall_mem_cons] at hops
    exact course_bind hI hops.1 fun v => course_bind hI (ih hops.2) fun vs => course_pure (v :: vs)

namespace TracedSite

variable {site : TracedSite} {mode : Mode}

/-- Applying an operator. -/
theorem course_apply (hI : Invariant I) (hE : Ordinary E)
    (hback : ∀ op ∈ site.bare.operands, op.PutsBack) {env : EnvId}
    (hops : ∀ op ∈ site.operands, Course I E Q (op.run env)) (p : Primitive) :
    Course I E Q (site.apply env p) := by
  have hsilent (hp : p.isSpecial) (hm : p = .member → site.bare.operands.length ≠ 2) :
      Course I E Q (.silent (site.bare.apply env p)) :=
    course_plain hE (CallSite.putsBack_apply hback env p) (plain_apply hp hm)
  obtain ⟨head, ops, object⟩ := site
  cases p with
  | tilde => exact hsilent rfl nofun
  | quote => exact hsilent rfl nofun
  | member =>
    rcases ops with _ | ⟨target, _ | ⟨member, _ | _⟩⟩
    · exact hsilent rfl fun _ h => by cases h
    · exact hsilent rfl fun _ h => by cases h
    · refine course_bind hI (hops target (List.mem_cons_self ..)) fun v => ?_
      exact course_plain hE
        (putsBack_bind (putsBack_memberName _) fun name => putsBack_member v name)
        (failsWith_bind (plain_memberName _) fun name => plain_member v name)
    · exact hsilent rfl fun _ h => by cases h
  | arithmetic op =>
    exact course_bind hI (course_traceOperands hI hops) fun vs =>
      course_plain hE (putsBack_ofExcept _) fun _ _ => isPlain_apply

/-- Letting the base `~` build a formula. -/
theorem course_toFormula (hI : Invariant I) (hJ : Invariant J)
    (hE : Ordinary E) (hback : ∀ op ∈ site.bare.operands, op.PutsBack)
    (hnest : ∀ {s}, I s → J { s with depth := s.depth + 1 }) {env : EnvId}
    (hops : ∀ op ∈ site.operands, Course J E Q (op.run env))
    (hQ : ∀ p, ∀ {s}, I s → Q ⟨.call (.inlined p) site.bare.args, env, s⟩) :
    Course I E Q (site.toFormula mode env) := by
  obtain ⟨head, ops, object⟩ := site
  have hbare : ∀ p, Course J E Q (apply ⟨.inlined p, ops, none⟩ env p) := fun p =>
    @course_apply J E Q ⟨.inlined p, ops, none⟩ hJ hE hback env hops p
  have hbuilt : Course I E Q (toFormula mode ⟨head, ops, none⟩ env) := by
    refine course_bind hI (course_plain hE putsBack_baseTilde plain_baseTilde) fun p => ?_
    refine course_bind hI ?_ fun v => ?_
    · exact course_evaluates (course_nested hE hnest (hbare p)) (hQ p)
    · cases v <;> exact course_pure _
  rcases object with _ | ⟨head', args, _ | e, kind⟩
  · exact hbuilt
  · exact hbuilt
  · exact course_pure _

/-- Evaluating a quosure. Its scope is spliced in, or closes a cycle. -/
theorem course_evalQuosure (hI : Invariant I) {own : Option EnvId} {overscope top : EnvId}
    (hops : ∀ op ∈ site.operands, Course I E Q (op.run overscope))
    (hchain : ∀ {s}, I s → s.heap.hasAncestor overscope top = false → E .notAnAncestor)
    (htarget : Course I E Q (.silent (targetScope own overscope)))
    (hscope : ∀ target, (∃ s, I s ∧ (targetScope own overscope s).1 = .ok target) → ∀ {s}, I s →
      if s.heap.hasAncestor target top then E .cyclicScope
      else I (s.spliced overscope top target)) :
    Course I E Q (site.evalQuosure own overscope top) := by
  have hrequire : Course I E Q (.silent (requireOnChain overscope top)) := by
    refine course_silent (putsBack_requireOnChain overscope top) fun {s} hs {err} h => ?_
    simp only [requireOnChain, Attempt.bind_run, Attempt.read] at h
    rcases ha : s.heap.hasAncestor overscope top
    · rw [ha] at h
      cases h
      exact hchain hs ha
    · rw [ha] at h
      cases h
  unfold evalQuosure
  rcases hlast : site.operands.getLast? with _ | rhs
  · exact course_pure _
  have hrhs := hops rhs (List.mem_of_getLast? hlast)
  simp only
  split
  · exact course_pure _
  split
  · exact hrhs
  refine course_bind hI hrequire fun _ => ?_
  refine course_bind_of_result hI htarget
    (fun target => putsBack_withScope hrhs.putsBack overscope top target) fun target hfrom => ?_
  refine course_inside (putsBack_withScope hrhs.putsBack overscope top target)
    (fun {s} hs => ?_) hrhs
  have hprepares := prepares_withScope s overscope top target
  have hgoes := hscope target hfrom hs
  split at hprepares
  · next ha =>
    rw [if_pos ha] at hgoes
    exact Or.inr ⟨_, hprepares, hgoes⟩
  · next ha =>
    rw [if_neg ha] at hgoes
    exact Or.inl ⟨_, hprepares, hgoes⟩

/-- What `~` does in an overscope. -/
theorem course_overridden {overscope top : EnvId}
    (hformula : Course I E Q (site.toFormula mode overscope))
    (hquosure : ∀ head args own, site.object = some ⟨head, args, own, .quosure⟩ →
      Course I E Q (site.evalQuosure own overscope top)) :
    Course I E Q (site.overridden mode overscope top) := by
  obtain ⟨head, ops, object⟩ := site
  rcases object with _ | ⟨head', args, own, _ | _⟩
  · exact hformula
  · exact hformula
  · exact hquosure head' args own rfl

/-- Evaluating a call, one deeper. Of its override one knows where it was found. -/
theorem course_eval (hJ : Invariant J) (hE : Ordinary E)
    (hback : ∀ op ∈ site.bare.operands, op.PutsBack)
    (hnest : ∀ {s}, I s → J { s with depth := s.depth + 1 }) {env : EnvId}
    (happly : ∀ p, Course J E Q (site.apply env p))
    (hoverride : ∀ t, (∃ s, J s ∧ (site.head.resolve env s).1 = .ok (.override t)) →
      Course J E Q (.silent t.frames >>= fun frames => site.overridden mode frames.1 frames.2)) :
    Course I E Q (site.eval mode env) := by
  refine course_nested hE hnest ?_
  have hresolve : Course J E Q (.silent (site.head.resolve env)) :=
    course_plain hE (putsBack_resolve site.head env) (plain_resolve site.head env)
  refine course_bind_of_result hJ hresolve (fun c => ?_) fun c hfrom => ?_
  · cases c with
    | builtin p => exact (happly p).putsBack
    | override t =>
      refine putsBack_bind (putsBack_frames t) fun frames => ?_
      show PutsBack (site.overridden mode frames.1 frames.2).run
      rw [run_overridden]
      exact CallSite.putsBack_overridden hback mode _ _
  · cases c with
    | builtin p => exact happly p
    | override t => exact hoverride t hfrom

end TracedSite

/-- The operands that code is written with put back what they rewire. -/
theorem Args.putsBack_site (mode : Mode) (head : Head) (args : Args) (object : Option Formula) :
    ∀ op ∈ (TracedSite.mk head (args.traced mode) object).bare.operands, op.PutsBack := by
  rw [TracedSite.bare, args.bare_traced]
  exact args.putsBack_operands mode

end Overscope
