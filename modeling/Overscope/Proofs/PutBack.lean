-- What evaluation puts back, whatever the scope graph looks like: cycles or not, every
-- frame is as it was, as long as each of them has a holder. What stays is learned one
-- thing at a time, a name for a text or the operator of `~`, so what one such step
-- keeps is kept by every evaluation.
import Overscope.Proofs.Restoration

open Relation

namespace Overscope

/-! ## What is learned -/

/-- One thing is learned, where base binds `~` to `bound`: a name for a text, or the
operator of `~`, which was not known. -/
inductive Memo.Gains (bound : Option Value) : Memo → Memo → Prop
  | text {m : Memo} (text : String) :
      Gains bound m { m with interner := (m.interner.intern text).2 }
  | tilde {m : Memo} {p : Primitive} (hnew : m.tilde = none) (hp : bound = some (.builtin p)) :
      Gains bound m { m with tilde := some p }

/-- What base itself binds `~` to. -/
def Heap.boundTilde (h : Heap) : Option Value := h.local? .base .tilde

/-- The second state is the first one, but for what was learned meanwhile. -/
structure State.LearnsTo (s s' : State) : Prop where
  heap : s'.heap = s.heap
  depth : s'.depth = s.depth
  held : s'.held = s.held
  memo : ReflTransGen (Memo.Gains s.heap.boundTilde) s.memo s'.memo

theorem Memo.Gains.extends {bound : Option Value} {m m' : Memo} (h : Memo.Gains bound m m') :
    m.Extends m' := by
  cases h with
  | text text => exact ⟨m.interner.extends_intern text, fun _ hp => hp⟩
  | tilde hnew _ =>
    refine ⟨m.interner.extends_refl, fun q hq => ?_⟩
    rw [hnew] at hq
    cases hq

theorem Memo.extends_of_gains {bound : Option Value} {m m' : Memo}
    (h : ReflTransGen (Memo.Gains bound) m m') : m.Extends m' := by
  induction h with
  | refl => exact m.extends_refl
  | tail _ hlast ih => exact ih.trans hlast.extends

namespace State.LearnsTo

variable {s s₁ s₂ : State}

theorem refl (s : State) : s.LearnsTo s := ⟨rfl, rfl, rfl, ReflTransGen.refl⟩

theorem trans (h : s.LearnsTo s₁) (h' : s₁.LearnsTo s₂) : s.LearnsTo s₂ where
  heap := h'.heap.trans h.heap
  depth := h'.depth.trans h.depth
  held := h'.held.trans h.held
  memo := by
    have hmemo := h'.memo
    rw [h.heap] at hmemo
    exact h.memo.trans hmemo

theorem onlyLearned (h : s.LearnsTo s₁) : s.OnlyLearned s₁ :=
  ⟨h.heap, h.depth, h.held, Memo.extends_of_gains h.memo⟩

theorem settled (h : s.LearnsTo s₁) (hs : s.heap.Settled s.held) : s₁.heap.Settled s₁.held := by
  rw [h.heap, h.held]
  exact hs

theorem sound (h : s.LearnsTo s₁) (hs : s.Sound) : s₁.Sound := by
  refine ⟨?_, h.settled hs.settled⟩
  rw [h.heap]
  exact hs.acyclic

/-- A state is the one before with another memory. -/
theorem eq_withMemo (h : s.LearnsTo s₁) : s₁ = s.withMemo s₁.memo := by
  obtain ⟨_, _, _, _, _⟩ := s
  obtain ⟨_, _, _, _, _⟩ := s₁
  obtain ⟨hheap, hdepth, hheld, -⟩ := h
  simp only at hheap hdepth hheld
  subst hheap hdepth hheld
  rfl

end State.LearnsTo

/-! ## Steps that put back -/

variable {α β : Type}

/-- Where every live frame has a holder, nothing but what was learned is new after
the step. -/
def PutsBack (x : EvalM α) : Prop :=
  ∀ s : State, s.heap.Settled s.held → s.LearnsTo (x s).2

theorem putsBack_pure (a : α) : PutsBack (pure a : EvalM α) := fun s _ => .refl s

theorem putsBack_fail (e : EvalError) : PutsBack (.fail e : EvalM α) := fun s _ => .refl s

theorem putsBack_read (f : State → α) : PutsBack (.read f : EvalM α) := fun s _ => .refl s

theorem putsBack_ofExcept (r : Except EvalError α) : PutsBack (.ofExcept r : EvalM α) :=
  fun s _ => .refl s

theorem putsBack_bind {x : EvalM α} {f : α → EvalM β} (hx : PutsBack x)
    (hf : ∀ a, PutsBack (f a)) : PutsBack (x >>= f) := by
  intro s hs
  have hfirst := hx s hs
  rw [Attempt.bind_run]
  rcases hr : x s with ⟨_ | a, s'⟩
  · rw [hr] at hfirst
    exact hfirst
  · rw [hr] at hfirst
    exact hfirst.trans (hf a s' (hfirst.settled hs))

/-- Failures that tell a name by its text. -/
theorem putsBack_fail_text (n : Name) (e : String → EvalError) :
    PutsBack (nameText n >>= fun text => (.fail (e text) : EvalM α)) :=
  putsBack_bind (putsBack_read _) fun _ => putsBack_fail _

theorem putsBack_nested (mode : Mode) {x : EvalM α} (hx : PutsBack x) :
    PutsBack (nested mode x) := by
  intro s hs
  have hdeeper : s.LearnsTo (nested.deeper x s).2 := by
    have hbody := hx { s with depth := s.depth + 1 } hs
    unfold nested.deeper
    refine ⟨hbody.heap, ?_, hbody.held, hbody.memo⟩
    have hdepth := hbody.depth
    simp only at hdepth ⊢
    omega
  unfold nested
  cases mode.limit? with
  | none => exact hdeeper
  | some limit =>
    simp only
    split
    · exact .refl s
    · exact hdeeper

/-- A guard puts its slot back, and what the slot held did not die meanwhile. -/
theorem learnsTo_underGuard {x : EvalM α} (hx : PutsBack x) {s : State}
    (hs : s.heap.Settled s.held) {guard : Guard} {heap : Heap}
    (hset : heap.Settled (joinHandles guard.handles s.held)) (hback : heap.release guard = s.heap)
    (hbound : heap.boundTilde = s.heap.boundTilde) :
    s.LearnsTo (underGuard guard x { s with heap }).2 := by
  have hbody := hx { s with heap, held := joinHandles guard.handles s.held } hset
  have hmemo := hbody.memo
  rw [hbound] at hmemo
  refine ⟨?_, hbody.depth, rfl, hmemo⟩
  show Heap.sweep (Heap.release _ guard) s.held = s.heap
  rw [hbody.heap, hback, Heap.sweep_of_settled hs]

theorem Heap.boundTilde_bind (h : Heap) (e : EnvId) {name : Name} (hn : name ≠ .tilde) (v : Value) :
    (h.bind e name v).boundTilde = h.boundTilde := by
  rw [boundTilde, local?_bind, if_neg fun hc => hn hc.2.2, boundTilde]

theorem Heap.boundTilde_setParent (h : Heap) (e : EnvId) (p : Option EnvId) :
    (h.setParent e p).boundTilde = h.boundTilde := by
  rw [boundTilde, local?_setParent, boundTilde]

theorem putsBack_withBinding {x : EvalM α} (hx : PutsBack x) (e : EnvId) {name : Name}
    (hn : name ≠ .tilde) (v : Value) : PutsBack (withBinding e name v x) :=
  fun s hs => learnsTo_underGuard hx hs (Heap.settled_bind hs e name v)
    (Heap.restoreBinding_bind s.heap e name v) (Heap.boundTilde_bind s.heap e hn v)

theorem putsBack_withParent {x : EvalM α} (hx : PutsBack x) (e parent : EnvId) :
    PutsBack (withParent e parent x) := by
  intro s hs
  by_cases ha : s.heap.hasAncestor parent e
  · rw [withParent_run_error ha]
    exact .refl s
  · rw [withParent_run_ok ha]
    exact learnsTo_underGuard hx hs (Heap.settled_setParent hs e (some parent))
      (Heap.setParent_setParent s.heap e (some parent)) (Heap.boundTilde_setParent s.heap e _)

/-! ## Operators -/

def Operand.PutsBack (op : Operand) : Prop := ∀ env, Overscope.PutsBack (op.run env)

theorem putsBack_memberName (e : Expr) : PutsBack e.memberName := by
  cases e with
  | const v =>
    cases v with
    | str text => exact fun s _ => ⟨rfl, rfl, rfl, ReflTransGen.single (.text text)⟩
    | _ => exact putsBack_fail _
  | symbol n => exact putsBack_pure n
  | _ => exact putsBack_fail _

theorem putsBack_member (target : Value) (name : Name) : PutsBack (target.member name) := by
  cases target with
  | pronoun source absence =>
    refine putsBack_bind (putsBack_read _) fun found => ?_
    cases found with
    | none => exact putsBack_fail_text name _
    | some w => exact putsBack_pure w
  | list kind entries => exact putsBack_pure _
  | env e => exact putsBack_read _
  | _ => exact putsBack_fail _

theorem putsBack_evalOperands {ops : List Operand} (hops : ∀ op ∈ ops, op.PutsBack) (env : EnvId) :
    PutsBack (evalOperands ops env) := by
  induction ops with
  | nil => exact putsBack_pure []
  | cons op ops ih =>
    refine putsBack_bind (hops op (List.mem_cons_self ..) env) fun v => ?_
    exact putsBack_bind (ih fun op' hop => hops op' (List.mem_cons_of_mem _ hop)) fun vs =>
      putsBack_pure (v :: vs)

theorem putsBack_baseTilde : PutsBack baseTilde := by
  intro s _
  obtain ⟨interner, heap, depth, tilde, held⟩ := s
  simp only [baseTilde, Attempt.bind_run, Attempt.read]
  cases tilde with
  | some p => exact .refl _
  | none =>
    simp only [Attempt.bind_run, Attempt.read]
    rcases hbound : heap.local? .base .tilde with _ | w
    · exact .refl _
    · cases w with
      | builtin p =>
        exact ⟨rfl, rfl, rfl, ReflTransGen.single (.tilde rfl hbound)⟩
      | _ => exact .refl _

theorem putsBack_requireOnChain (overscope top : EnvId) :
    PutsBack (requireOnChain overscope top) := by
  refine putsBack_bind (putsBack_read _) fun found => ?_
  cases found with
  | true => exact putsBack_pure ()
  | false => exact putsBack_fail _

theorem putsBack_localEnv (e : EnvId) (name : Name) : PutsBack (localEnv e name) := by
  refine putsBack_bind (putsBack_read _) fun found => ?_
  cases found with
  | none => exact putsBack_fail_text name _
  | some v =>
    cases v with
    | env f => exact putsBack_pure f
    | _ => exact putsBack_fail _

theorem putsBack_targetScope (own : Option EnvId) (overscope : EnvId) :
    PutsBack (targetScope own overscope) := by
  cases own with
  | some e => exact putsBack_pure e
  | none => exact putsBack_localEnv overscope .env

theorem putsBack_withScope {x : EvalM α} (hx : PutsBack x) (overscope top target : EnvId) :
    PutsBack (withScope overscope top target x) := by
  refine putsBack_bind (putsBack_read _) fun isMask => ?_
  have hparent := putsBack_withParent hx top target
  cases isMask with
  | true => exact putsBack_withBinding hparent overscope (by decide) _
  | false => exact hparent

theorem putsBack_resolve (head : Head) (env : EnvId) : PutsBack (head.resolve env) := by
  cases head with
  | inlined p => exact putsBack_pure _
  | symbol name =>
    refine putsBack_bind (putsBack_read _) fun found => ?_
    cases found with
    | none => exact putsBack_fail_text name _
    | some c => exact putsBack_pure c

theorem putsBack_frames (t : Override) : PutsBack t.frames := by
  refine putsBack_bind (putsBack_read _) fun alive => ?_
  cases alive with
  | true => exact putsBack_pure _
  | false => exact putsBack_fail _

/-! ## Calls and expressions -/

namespace CallSite

variable {site : CallSite} (hops : ∀ op ∈ site.operands, op.PutsBack)

include hops

theorem putsBack_apply (env : EnvId) (p : Primitive) : PutsBack (site.apply env p) := by
  obtain ⟨head, ops, object⟩ := site
  cases p with
  | tilde => exact putsBack_pure _
  | quote =>
    rcases ops with _ | ⟨op, _ | _⟩
    · exact putsBack_fail _
    · exact putsBack_pure _
    · exact putsBack_fail _
  | member =>
    rcases ops with _ | ⟨target, _ | ⟨member, _ | _⟩⟩
    · exact putsBack_fail _
    · exact putsBack_fail _
    · refine putsBack_bind (hops target (List.mem_cons_self ..) env) fun v => ?_
      exact putsBack_bind (putsBack_memberName member.code) fun name => putsBack_member v name
    · exact putsBack_fail _
  | arithmetic op =>
    exact putsBack_bind (putsBack_evalOperands hops env) fun vs => putsBack_ofExcept _

theorem putsBack_toFormula (mode : Mode) (env : EnvId) : PutsBack (site.toFormula mode env) := by
  unfold toFormula
  split
  · exact putsBack_pure _
  · refine putsBack_bind putsBack_baseTilde fun p => ?_
    refine putsBack_bind (putsBack_nested mode ?_) fun v => ?_
    · have hbare : ∀ op ∈ (CallSite.mk (.inlined p) site.operands none).operands, op.PutsBack := hops
      exact putsBack_apply hbare env p
    · cases v <;> exact putsBack_pure _

theorem putsBack_evalQuosure (own : Option EnvId) (overscope top : EnvId) :
    PutsBack (site.evalQuosure own overscope top) := by
  unfold evalQuosure
  rcases hlast : site.operands.getLast? with _ | rhs
  · exact putsBack_pure _
  · have hrhs := hops rhs (List.mem_of_getLast? hlast) overscope
    simp only
    split
    · exact putsBack_pure _
    split
    · exact hrhs
    refine putsBack_bind (putsBack_requireOnChain overscope top) fun _ => ?_
    refine putsBack_bind (putsBack_targetScope own overscope) fun target => ?_
    exact putsBack_withScope hrhs overscope top target

theorem putsBack_overridden (mode : Mode) (overscope top : EnvId) :
    PutsBack (site.overridden mode overscope top) := by
  unfold overridden
  split
  · exact putsBack_evalQuosure hops _ overscope top
  · exact putsBack_toFormula hops mode overscope

theorem putsBack_eval (mode : Mode) (env : EnvId) : PutsBack (site.eval mode env) := by
  refine putsBack_nested mode (putsBack_bind (putsBack_resolve site.head env) fun c => ?_)
  cases c with
  | builtin p => exact putsBack_apply hops env p
  | override t =>
    exact putsBack_bind (putsBack_frames t) fun frames => putsBack_overridden hops mode _ _

end CallSite

mutual

theorem Expr.putsBack_eval (mode : Mode) (e : Expr) (env : EnvId) : PutsBack (e.eval mode env) := by
  cases e with
  | const v => exact v.putsBack_evalInlined mode env
  | symbol name =>
    refine putsBack_bind (putsBack_read _) fun found => ?_
    cases found with
    | none => exact putsBack_fail_text name _
    | some v => exact putsBack_pure v
  | call head args => exact CallSite.putsBack_eval (args.putsBack_operands mode) mode env
  | missing => exact putsBack_pure _

theorem Value.putsBack_evalInlined (mode : Mode) (v : Value) (env : EnvId) :
    PutsBack (v.evalInlined mode env) := by
  cases v with
  | formula head args own kind =>
    exact CallSite.putsBack_eval (args.putsBack_operands mode) mode env
  | _ => exact putsBack_pure _

theorem Args.putsBack_operands (mode : Mode) (args : Args) :
    ∀ op ∈ args.operands mode, op.PutsBack := by
  cases args with
  | nil => simp [Args.operands]
  | cons e rest =>
    intro op hop
    rcases List.mem_cons.1 hop with rfl | hrest
    · exact e.putsBack_eval mode
    · exact rest.putsBack_operands mode op hrest

end

theorem Value.putsBack_callSite? {mode : Mode} {v : Value} {site : CallSite}
    (hv : v.callSite? mode = some site) : ∀ op ∈ site.operands, op.PutsBack := by
  unfold Value.callSite? at hv
  split at hv
  · next args _ _ =>
    obtain rfl := Option.some.inj hv
    exact args.putsBack_operands mode
  · next args =>
    obtain rfl := Option.some.inj hv
    exact args.putsBack_operands mode
  · cases hv

theorem Value.putsBack_evalTilde (mode : Mode) (v : Value) (overscope top : EnvId) :
    PutsBack (v.evalTilde mode overscope top) := by
  unfold Value.evalTilde
  split
  · next hv => exact CallSite.putsBack_overridden (Value.putsBack_callSite? hv) mode overscope top
  · exact putsBack_fail _

theorem Value.putsBack_toFormula (mode : Mode) (v : Value) (env : EnvId) :
    PutsBack (v.toFormula mode env) := by
  unfold Value.toFormula
  split
  · next hv => exact CallSite.putsBack_toFormula (Value.putsBack_callSite? hv) mode env
  · exact putsBack_fail _

end Overscope
