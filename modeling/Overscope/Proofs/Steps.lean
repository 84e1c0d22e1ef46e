-- The single steps of an evaluation: the errors with which they can end, and the state in
-- which a step that prepares one runs its body.
import Overscope.Proofs.Growth
import Overscope.Proofs.PutBack
import Overscope.Proofs.Trace

namespace Overscope

variable {α β : Type}

/-! ## Errors -/

/-- If the step fails, then with an error that satisfies `P`. -/
def FailsWith (P : EvalError → Prop) (x : EvalM α) : Prop := ∀ s err, (x s).1 = .error err → P err

section

variable {P Q : EvalError → Prop}

theorem failsWith_pure (a : α) : FailsWith P (pure a : EvalM α) := fun _ _ h => by cases h

theorem failsWith_fail {e : EvalError} (he : P e) : FailsWith P (.fail e : EvalM α) := by
  intro s err h
  cases h
  exact he

theorem failsWith_read (f : State → α) : FailsWith P (.read f : EvalM α) := fun _ _ h => by cases h

theorem failsWith_bind {x : EvalM α} {f : α → EvalM β} (hx : FailsWith P x)
    (hf : ∀ a, FailsWith P (f a)) : FailsWith P (x >>= f) := by
  intro s err h
  rw [Attempt.bind_run] at h
  rcases hr : x s with ⟨e | a, s'⟩
  · rw [hr] at h
    obtain rfl : e = err := Except.error.inj h
    exact hx s e (by rw [hr])
  · rw [hr] at h
    exact hf a s' err h

theorem FailsWith.mono {x : EvalM α} (hx : FailsWith P x) (hPQ : ∀ err, P err → Q err) :
    FailsWith Q x :=
  fun s err h => hPQ err (hx s err h)

end

/-- What can be wrong with operators and operands. The other errors are of the scope graph,
of a variable, or of the depth. -/
def EvalError.isPlain : EvalError → Bool
  | .undefinedFunction _ | .notCallable _ | .typeMismatch _ _ | .wrongArgCount _ _ _
  | .divisionByZero | .integerOverflow _ | .absentFromData _ _ => true
  | .undefinedVariable _ | .recursionLimit _ | .invalidDataMask _ | .maskDropped | .cyclicScope
  | .notAnAncestor => false

/-- If the step fails, then with a plain error. -/
def Plain (x : EvalM α) : Prop := FailsWith (·.isPlain) x

theorem plain_fail_text (n : Name) {e : String → EvalError} (he : ∀ text, (e text).isPlain) :
    Plain (nameText n >>= fun text => (.fail (e text) : EvalM α)) :=
  failsWith_bind (failsWith_read _) fun text => failsWith_fail (he text)

theorem plain_memberName (e : Expr) : Plain e.memberName := by
  cases e with
  | const v =>
    cases v with
    | str text => exact fun _ _ h => by cases h
    | _ => exact failsWith_fail rfl
  | symbol n => exact failsWith_pure n
  | _ => exact failsWith_fail rfl

theorem plain_member (target : Value) (name : Name) : Plain (target.member name) := by
  cases target with
  | pronoun source absence =>
    refine failsWith_bind (failsWith_read _) fun found => ?_
    cases found with
    | none => exact plain_fail_text name fun _ => rfl
    | some w => exact failsWith_pure w
  | list kind entries => exact failsWith_pure _
  | env e => exact failsWith_read _
  | _ => exact failsWith_fail rfl

theorem plain_baseTilde : Plain baseTilde := by
  refine failsWith_bind (failsWith_read _) fun known => ?_
  cases known with
  | some p => exact failsWith_pure p
  | none =>
    refine failsWith_bind (failsWith_read _) fun bound => ?_
    rcases bound with _ | w
    · exact failsWith_fail rfl
    · cases w with
      | builtin p => exact failsWith_bind (fun _ _ h => by cases h) fun _ => failsWith_pure p
      | _ => exact failsWith_fail rfl

theorem plain_resolve (head : Head) (env : EnvId) : Plain (head.resolve env) := by
  cases head with
  | inlined p => exact failsWith_pure _
  | symbol name =>
    refine failsWith_bind (failsWith_read _) fun found => ?_
    cases found with
    | none => exact plain_fail_text name fun _ => rfl
    | some c => exact failsWith_pure c

theorem isPlain_exactInt {operation : String} {n : Int} {err : EvalError}
    (h : exactInt operation n = .error err) : err.isPlain := by
  unfold exactInt at h
  split at h
  · cases h
  · cases h
    rfl

theorem isPlain_numeric {v : Value} {err : EvalError} (h : v.numeric = .error err) :
    err.isPlain := by
  cases v with
  | int n => cases h
  | float x => cases h
  | _ =>
    cases h
    rfl

theorem isPlain_onInts {op : Operator} {m n : Int64} {err : EvalError}
    (h : op.onInts m n = .error err) : err.isPlain := by
  cases op with
  | div =>
    simp only [Operator.onInts] at h
    split at h
    · cases h
      rfl
    · cases h
  | _ => exact isPlain_exactInt h

theorem isPlain_between {op : Operator} {v w : Value} {err : EvalError}
    (h : op.between v w = .error err) : err.isPlain := by
  unfold Operator.between at h
  split at h
  · exact isPlain_onInts h
  · rcases hv : v.numeric with e | x
    · rw [hv] at h
      cases h
      exact isPlain_numeric hv
    · rcases hw : w.numeric with e | y
      · rw [hv, hw] at h
        cases h
        exact isPlain_numeric hw
      · rw [hv, hw] at h
        cases h

theorem isPlain_negate {v : Value} {err : EvalError} (h : v.negate = .error err) :
    err.isPlain := by
  cases v with
  | int n => exact isPlain_exactInt h
  | float x => cases h
  | _ =>
    cases h
    rfl

theorem isPlain_apply {op : Operator} {vs : List Value} {err : EvalError}
    (h : op.apply vs = .error err) : err.isPlain := by
  rcases vs with _ | ⟨v, _ | ⟨w, _ | _⟩⟩
  · cases h
    rfl
  · cases op with
    | add =>
      cases v with
      | int n => cases h
      | float x => cases h
      | _ =>
        cases h
        rfl
    | sub => exact isPlain_negate h
    | _ =>
      cases h
      rfl
  · exact isPlain_between h
  · cases h
    rfl

/-- The special operators, unless they start an evaluation. -/
theorem plain_apply {site : CallSite} {env : EnvId} {p : Primitive}
    (hp : p.isSpecial) (hm : p = .member → site.operands.length ≠ 2) :
    Plain (site.apply env p) := by
  obtain ⟨head, ops, object⟩ := site
  cases p with
  | tilde => exact failsWith_pure _
  | quote =>
    rcases ops with _ | ⟨op, _ | _⟩
    · exact failsWith_fail rfl
    · exact failsWith_pure _
    · exact failsWith_fail rfl
  | member =>
    rcases ops with _ | ⟨target, _ | ⟨member, _ | _⟩⟩
    · exact failsWith_fail rfl
    · exact failsWith_fail rfl
    · exact absurd rfl (hm rfl)
    · exact failsWith_fail rfl
  | arithmetic op => cases hp

/-! ## The frames of an override -/

namespace Override

variable {t : Override} {s : State}

theorem frames_of_isLive (hmask : s.heap.isLive t.mask) (htop : s.heap.isLive t.top) :
    t.frames s = (.ok (t.mask, t.top), s) := by
  simp only [frames, Attempt.bind_run, Attempt.read, hmask, htop, Bool.and_true]
  rfl

theorem frames_of_dead (hmask : s.heap.isLive t.mask = false) :
    t.frames s = (.error .maskDropped, s) := by
  simp only [frames, Attempt.bind_run, Attempt.read, hmask, Bool.false_and]
  rfl

end Override

/-! ## Prepared states -/

/-- From `s` a step that prepares the state runs its body in the given state, with the outcome
of the body, or fails with the given error, whatever its body is. -/
def Prepares (prepare : (γ : Type) → EvalM γ → EvalM γ) (s : State) :
    Except EvalError State → Prop
  | .ok t => ∃ back : State → State, ∀ (γ : Type) (x : EvalM γ),
      prepare γ x s = ((x t).1, back (x t).2)
  | .error err => ∃ s', ∀ (γ : Type) (x : EvalM γ), prepare γ x s = (.error err, s')

theorem Prepares.startOf_eq {prepare : (γ : Type) → EvalM γ → EvalM γ} {s : State}
    {t : Except EvalError State} (h : Prepares prepare s t) : startOf prepare s = t := by
  cases t with
  | ok t =>
    obtain ⟨back, hrun⟩ := h
    rw [startOf, hrun]
    rfl
  | error err =>
    obtain ⟨s', hrun⟩ := h
    rw [startOf, hrun]

/-- In a prepared state the visits are those of the body there. -/
theorem visits_inside_ok {prepare : (γ : Type) → EvalM γ → EvalM γ} {s t : State}
    (h : Prepares prepare s (.ok t)) (x : Traced α) :
    (Traced.inside prepare x).visits s = x.visits t := by
  show (match startOf prepare s with | .ok t => x.visits t | .error _ => []) = _
  rw [h.startOf_eq]

theorem visits_inside_error {prepare : (γ : Type) → EvalM γ → EvalM γ} {s : State}
    {err : EvalError} (h : Prepares prepare s (.error err)) (x : Traced α) :
    (Traced.inside prepare x).visits s = [] := by
  show (match startOf prepare s with | .ok t => x.visits t | .error _ => []) = _
  rw [h.startOf_eq]

namespace State

/-- The state in which a guard is in force. -/
def guarded (s : State) (guard : Guard) (heap : Heap) : State :=
  { s with heap, held := joinHandles guard.handles s.held }

/-- The state with a binding replaced under a guard. -/
def rebound (s : State) (e : EnvId) (name : Name) (v : Value) : State :=
  s.guarded (.binding e name (s.heap.local? e name)) (s.heap.bind e name v)

/-- The state with a frame under another parent, under a guard. -/
def rehung (s : State) (e parent : EnvId) : State :=
  s.guarded (.parent e (s.heap.parent? e)) (s.heap.setParent e (some parent))

/-- The state in which an overscope goes on, above its top frame, in `target`. -/
def spliced (s : State) (overscope top target : EnvId) : State :=
  (if s.heap.isMask overscope then s.rebound overscope .env (.env target) else s).rehung top target

theorem settled_rebound {s : State} (hs : s.heap.Settled s.held) (e : EnvId) (name : Name)
    (v : Value) : (s.rebound e name v).heap.Settled (s.rebound e name v).held :=
  Heap.settled_bind hs e name v

theorem settled_spliced {s : State} (hs : s.heap.Settled s.held) (overscope top target : EnvId) :
    (s.spliced overscope top target).heap.Settled (s.spliced overscope top target).held := by
  unfold spliced
  split
  · exact Heap.settled_setParent (settled_rebound hs overscope .env (.env target)) top _
  · exact Heap.settled_setParent hs top _

theorem depth_spliced (s : State) (overscope top target : EnvId) :
    (s.spliced overscope top target).depth = s.depth := by
  unfold spliced
  split <;> rfl

end State

theorem prepares_underGuard (s : State) (guard : Guard) (heap : Heap) {t : State}
    (ht : s.guarded guard heap = t) :
    ∃ back : State → State, ∀ (γ : Type) (x : EvalM γ),
      underGuard guard x { s with heap } = ((x t).1, back (x t).2) := by
  subst ht
  exact ⟨fun s' => ({ s' with heap := s'.heap.release guard, held := s.held } : State).sweep,
    fun _ _ => rfl⟩

theorem prepares_withBinding (s : State) (e : EnvId) (name : Name) (v : Value) :
    Prepares (fun _ => withBinding e name v) s (.ok (s.rebound e name v)) :=
  prepares_underGuard s _ _ rfl

theorem prepares_withParent (s : State) (e parent : EnvId) :
    Prepares (fun _ => withParent e parent) s
      (if s.heap.hasAncestor parent e then .error .cyclicScope else .ok (s.rehung e parent)) := by
  split
  · next ha => exact ⟨s, fun _ _ => withParent_run_error ha⟩
  · next ha =>
    obtain ⟨back, hrun⟩ := prepares_underGuard s (.parent e (s.heap.parent? e))
      (s.heap.setParent e (some parent)) rfl
    exact ⟨back, fun γ x => (withParent_run_ok ha).trans (hrun γ x)⟩

/-- One step that prepares the state inside of another one. -/
theorem Prepares.comp {outer inner : (γ : Type) → EvalM γ → EvalM γ} {s t : State}
    {u : Except EvalError State} (ho : Prepares outer s (.ok t)) (hi : Prepares inner t u) :
    Prepares (fun γ x => outer γ (inner γ x)) s u := by
  obtain ⟨back, hrun⟩ := ho
  cases u with
  | ok u =>
    obtain ⟨back', hrun'⟩ := hi
    refine ⟨fun s' => back (back' s'), fun γ x => ?_⟩
    show outer γ (inner γ x) s = _
    rw [hrun, hrun']
  | error err =>
    obtain ⟨s', hrun'⟩ := hi
    refine ⟨back s', fun γ x => ?_⟩
    show outer γ (inner γ x) s = _
    rw [hrun, hrun']

theorem Prepares.congr {prepare other : (γ : Type) → EvalM γ → EvalM γ} {s : State}
    {t : Except EvalError State} (h : Prepares other s t)
    (hsame : ∀ (γ : Type) (x : EvalM γ), prepare γ x s = other γ x s) : Prepares prepare s t := by
  cases t with
  | ok t =>
    obtain ⟨back, hrun⟩ := h
    exact ⟨back, fun γ x => (hsame γ x).trans (hrun γ x)⟩
  | error err =>
    obtain ⟨s', hrun⟩ := h
    exact ⟨s', fun γ x => (hsame γ x).trans (hrun γ x)⟩

theorem withScope_run (x : EvalM α) (s : State) (overscope top target : EnvId) :
    withScope overscope top target x s =
      if s.heap.isMask overscope then
        withBinding overscope .env (.env target) (withParent top target x) s
      else withParent top target x s := by
  unfold withScope
  simp only [Attempt.bind_run, Attempt.read]
  split <;> rfl

/-- Splicing a scope into an overscope, from where the top frame is not on the chain of the
scope. -/
theorem prepares_withScope (s : State) (overscope top target : EnvId) :
    Prepares (fun _ => withScope overscope top target) s
      (if s.heap.hasAncestor target top then .error .cyclicScope
        else .ok (s.spliced overscope top target)) := by
  unfold State.spliced
  by_cases hm : s.heap.isMask overscope
  · have hsame : (s.rebound overscope .env (.env target)).heap.hasAncestor target top =
        s.heap.hasAncestor target top := (Heap.sameLinks_bind ..).hasAncestor target top
    have hparent := prepares_withParent (s.rebound overscope .env (.env target)) top target
    rw [hsame] at hparent
    rw [if_pos hm]
    refine ((prepares_withBinding s overscope .env (.env target)).comp hparent).congr fun γ x => ?_
    rw [withScope_run, if_pos hm]
  · rw [if_neg hm]
    refine (prepares_withParent s top target).congr fun γ x => ?_
    rw [withScope_run, if_neg hm]

theorem prepares_nested_unlimited (s : State) :
    Prepares (fun _ => nested .unlimited) s (.ok { s with depth := s.depth + 1 }) :=
  ⟨fun s' => { s' with depth := s'.depth - 1 }, fun _ _ => rfl⟩

/-- Without a limit a step runs one call deeper as it is, and its outcome is that of the call. -/
theorem nested_unlimited_run {α : Type} {x : EvalM α} {r : Except EvalError α} {s t : State}
    (hdepth : t.depth = s.depth)
    (hx : x { s with depth := s.depth + 1 } = (r, { t with depth := s.depth + 1 })) :
    nested .unlimited x s = (r, t) := by
  simp only [nested, Mode.limit?, nested.deeper, hx, Nat.add_sub_cancel]
  rw [← hdepth]

/-- One call deeper, or at the limit. -/
theorem prepares_nested (mode : Mode) (s : State) :
    Prepares (fun _ => nested mode) s (.ok { s with depth := s.depth + 1 }) ∨
      ∃ limit, Prepares (fun _ => nested mode) s (.error (.recursionLimit limit)) := by
  cases mode with
  | unlimited => exact Or.inl (prepares_nested_unlimited s)
  | restricted limit =>
    by_cases hdeep : limit < s.depth + 1
    · refine Or.inr ⟨limit, s, fun _ x => ?_⟩
      simp only [nested, Mode.limit?, if_pos hdeep]
    · refine Or.inl ⟨fun s' => { s' with depth := s'.depth - 1 }, fun _ x => ?_⟩
      simp only [nested, Mode.limit?, if_neg hdeep]
      rfl

end Overscope
