-- Calls on one mask, one after the other. Each call that the mask accepts points it at
-- the scope of the call, which overwrites what the call before left there, and whether it
-- is accepted does not depend on where the mask points. So there is no more of the
-- history in a mask than the last scope, and the next call does not even see that.
import Overscope.Proofs.DataEval
import Overscope.Proofs.OwnMask
import Overscope.Proofs.Steady

open Relation

namespace Overscope

/-! ## Writing a slot twice -/

theorem putPair_self {κ α : Type} [DecidableEq κ] {k : κ} {a : α} {ps : List (κ × α)}
    (h : ps.lookup k = some a) : putPair k a ps = ps := by
  induction ps with
  | nil => simp at h
  | cons p ps ih =>
    obtain ⟨k', a'⟩ := p
    by_cases hp : k' = k <;> grind [putPair]

theorem putPair_twice {κ α : Type} [DecidableEq κ] (k : κ) (a b : α) (ps : List (κ × α)) :
    putPair k b (putPair k a ps) = putPair k b ps := by
  induction ps with
  | nil => simp [putPair]
  | cons p ps ih => by_cases hp : p.1 = k <;> grind [putPair]

theorem Table.insert_self {κ α : Type} [DecidableEq κ] {t : Table κ α} {k : κ} {a : α}
    (h : t.get? k = some a) : t.insert k a = t :=
  Table.ext (putPair_self h)

theorem Table.insert_twice {κ α : Type} [DecidableEq κ] (t : Table κ α) (k : κ) (a b : α) :
    (t.insert k a).insert k b = t.insert k b :=
  Table.ext (putPair_twice k a b t.entries)

/-! ## Pointing a mask -/

namespace Heap

/-- Scope graphs with the same frames are the same. -/
theorem ext_frame? {h h' : Heap} (hsize : h.size = h'.size) (hf : ∀ e, h.frame? e = h'.frame? e) :
    h = h' := by
  ext1
  apply Array.ext hsize
  intro i hi hi'
  have hframe := hf ⟨i⟩
  rw [frame?, frame?, Array.getElem?_eq_getElem hi, Array.getElem?_eq_getElem hi'] at hframe
  exact hframe

/-- The mask, with the given top frame, goes on in `scope`. -/
structure PointsTo (h : Heap) (mask top scope : EnvId) : Prop where
  isMask : h.isMask mask
  topEnv : h.local? mask .topEnv = some (.env top)
  env : h.local? mask .env = some (.env scope)
  link : h.Link top scope

variable {h : Heap} {mask top scope : EnvId}

theorem frame?_pointAt (h : Heap) (mask top scope f : EnvId) :
    (h.pointAt mask top scope).frame? f = (h.frame? f).map fun fr =>
      ⟨if mask = f then fr.bindings.insert .env (.env scope) else fr.bindings,
        if top = f then some scope else fr.parent⟩ := by
  rw [pointAt, frame?_bind, setParent, frame?_modify]
  by_cases hm : mask = f <;> by_cases ht : top = f <;>
    rcases h.frame? f with _ | fr <;> simp [hm, ht]

theorem local?_pointAt (h : Heap) (mask top scope e : EnvId) (n : Name) :
    (h.pointAt mask top scope).local? e n =
      if mask = e ∧ h.isLive e ∧ Name.env = n then some (.env scope) else h.local? e n := by
  rw [pointAt, local?_bind, local?_setParent, setParent, isLive_modify]

theorem parent?_pointAt (h : Heap) (mask top scope e : EnvId) :
    (h.pointAt mask top scope).parent? e =
      if top = e then (if h.isLive e then some scope else none) else h.parent? e := by
  rw [pointAt, parent?_bind, parent?_setParent]

/-- A mask keeps no trace of where it was pointed before. -/
theorem pointAt_pointAt (h : Heap) (mask top old new : EnvId) :
    (h.pointAt mask top old).pointAt mask top new = h.pointAt mask top new := by
  refine ext_frame? ?_ fun f => ?_
  · rw [size_pointAt, size_pointAt, size_pointAt]
  · rw [frame?_pointAt, frame?_pointAt, frame?_pointAt, Option.map_map]
    congr 1
    funext fr
    by_cases hm : mask = f <;> by_cases ht : top = f <;> simp [hm, ht, Table.insert_twice]

/-- To point a mask at the scope in which it goes on is no change at all. -/
theorem PointsTo.pointAt_self (hp : h.PointsTo mask top scope) :
    h.pointAt mask top scope = h := by
  refine ext_frame? (size_pointAt ..) fun f => ?_
  rw [frame?_pointAt]
  rcases hf : h.frame? f with _ | fr
  · rfl
  · have hbind : mask = f → fr.bindings.insert .env (.env scope) = fr.bindings := fun hm => by
      have hlocal := hp.env
      rw [hm, local?, bindings, hf] at hlocal
      exact Table.insert_self hlocal
    have hparent : top = f → some scope = fr.parent := fun ht => by
      have hlink := hp.link
      rw [ht, Link, parent?, hf] at hlink
      exact hlink.symm
    have hbindings : (if mask = f then fr.bindings.insert .env (.env scope) else fr.bindings) =
        fr.bindings := ite_eq_right_iff.2 hbind
    have hlink : (if top = f then some scope else fr.parent) = fr.parent :=
      ite_eq_right_iff.2 hparent
    rw [Option.map_some, hbindings, hlink]

theorem PointsTo.pointAt (hp : h.PointsTo mask top scope) (new : EnvId) :
    (h.pointAt mask top new).PointsTo mask top new where
  isMask := by
    rw [Heap.isMask, hasLocal, local?_pointAt, if_neg fun hc => by simp [Name.env, Name.maskFlag] at hc]
    exact hp.isMask
  topEnv := by
    rw [local?_pointAt, if_neg fun hc => by simp [Name.env, Name.topEnv] at hc]
    exact hp.topEnv
  env := by
    rw [local?_pointAt, if_pos ⟨rfl, isLive_of_hasLocal hp.isMask, rfl⟩]
  link := by
    rw [Link, parent?_pointAt, if_pos rfl, if_pos (isLive_of_parent? hp.link)]

/-- Whether a frame is inside of the top frame does not depend on where the top frame
goes on. -/
theorem hasAncestor_pointAt (h : Heap) (mask top scope e : EnvId) :
    (h.pointAt mask top scope).hasAncestor e top = h.hasAncestor e top := by
  have hparent : ∀ f, f ≠ top → (h.pointAt mask top scope).view.parent? f = h.view.parent? f :=
    fun f hf => (parent?_pointAt h mask top scope f).trans (if_neg (Ne.symm hf))
  rw [Bool.eq_iff_iff, hasAncestor_iff, hasAncestor_iff, chain, chain, size_pointAt,
    ← chainUpTo_view, ← chainUpTo_view]
  exact View.mem_chainUpTo_congr hparent _ e

theorem boundTilde_pointAt (h : Heap) (mask top scope : EnvId) :
    (h.pointAt mask top scope).boundTilde = h.boundTilde := by
  rw [pointAt, boundTilde_bind _ _ (by decide), boundTilde_setParent]

/-- Wherever a mask is pointed, every live frame has a holder, if the scope in which it
went on is held. -/
theorem PointsTo.settled (hp : h.PointsTo mask top scope) {held : List EnvId}
    (hs : h.Settled held) (hscope : scope ∈ held) (new : EnvId) :
    (h.pointAt mask top new).Settled held := by
  refine settled_pointAt hs (fun p hparent => ?_) (fun v hv x hx => ?_) new
  · rw [show h.parent? top = some scope from hp.link] at hparent
    cases hparent
    exact hscope
  · rw [hp.env] at hv
    cases hv
    rw [List.mem_singleton.1 hx]
    exact hscope

/-- A new mask goes on in the scope that it was built in. -/
theorem FreshMask.pointsTo {h' : Heap} {data : Value} (hf : h.FreshMask data scope h') :
    h'.PointsTo h.newMask h.newBottom scope := by
  refine ⟨?_, hf.local?_mask .topEnv, hf.local?_mask .env, hf.link_bottom⟩
  rw [isMask, hasLocal, hf.local?_mask]
  rfl

end Heap

/-! ## Calls on a mask -/

/-- A call on a mask: texts that get names for the code, the code, and the environment to
evaluate it in. -/
structure Ask where
  texts : List String
  code : Value
  env : EnvId

/-- Where the code of a call is evaluated. -/
def Ask.scope (a : Ask) : EnvId := a.code.scopeOr a.env

namespace State

/-- The state when the code of a call is written. -/
def written (s : State) (a : Ask) : State := { s with interner := s.interner.internAll a.texts }

/-- What the call gives, and the state after it. -/
def ask (mode : Mode) (mask : EnvId) (s : State) (a : Ask) : Except EvalError Value × State :=
  evalWithData mode a.code (.env mask) a.env (s.written a)

/-- The state after calls, one after the other, however each of them ends. -/
def afterAsks (mode : Mode) (mask : EnvId) (s : State) (asks : List Ask) : State :=
  asks.foldl (fun s a => (s.ask mode mask a).2) s

/-- Whether the mask can be pointed at the scope of the call. -/
def accepts (mask : EnvId) (s : State) (a : Ask) : Bool :=
  (pointMask mask a.scope (s.written a)).1.isOk

/-- The scope of the last of the calls that the mask accepted, or else `scope`. -/
def lastScope (mode : Mode) (mask : EnvId) (s : State) (scope : EnvId) : List Ask → EnvId
  | [] => scope
  | a :: asks =>
    lastScope mode mask (s.ask mode mask a).2 (if s.accepts mask a then a.scope else scope) asks

/-- The second state is the first one, but for what was learned and where the mask
points. -/
structure Repointed (s : State) (mask top scope : EnvId) (t : State) : Prop where
  heap : t.heap = s.heap.pointAt mask top scope
  depth : t.depth = s.depth
  held : t.held = s.held
  memo : ReflTransGen (Memo.Gains s.heap.boundTilde) s.memo t.memo

/-! ## What is left of a history -/

variable {s t : State} {mask top parent last : EnvId}

theorem Repointed.refl (hp : s.heap.PointsTo mask top parent) : s.Repointed mask top parent s :=
  ⟨hp.pointAt_self.symm, rfl, rfl, .refl⟩

theorem Repointed.pointsTo (hp : s.heap.PointsTo mask top parent)
    (ht : s.Repointed mask top last t) : t.heap.PointsTo mask top last := by
  rw [ht.heap]
  exact hp.pointAt last

theorem gains_internAll (bound : Option Value) (m : Memo) (texts : List String) :
    ReflTransGen (Memo.Gains bound) m { m with interner := m.interner.internAll texts } := by
  induction texts generalizing m with
  | nil => exact .refl
  | cons text texts ih => exact .head (.text text) (ih { m with interner := _ })

/-- To write code is to learn names alone. -/
theorem Repointed.written (ht : s.Repointed mask top last t) (a : Ask) :
    s.Repointed mask top last (t.written a) :=
  ⟨ht.heap, ht.depth, ht.held, ht.memo.trans (gains_internAll _ t.memo a.texts)⟩

/-- Whether a mask accepts a scope does not depend on its history. -/
theorem Repointed.accepts_eq (hp : s.heap.PointsTo mask top parent)
    (ht : s.Repointed mask top last t) (a : Ask) :
    t.accepts mask a = !s.heap.hasAncestor a.scope top := by
  have hsame : (t.written a).heap.hasAncestor a.scope top = s.heap.hasAncestor a.scope top := by
    rw [show (t.written a).heap = t.heap from rfl, ht.heap, Heap.hasAncestor_pointAt]
  rw [accepts, pointMask_of_env ((ht.written a).pointsTo hp).topEnv, hsame]
  cases s.heap.hasAncestor a.scope top <;> rfl

end State

/-- Data that is a mask is evaluated in. -/
theorem evalWithData_of_isMask (mode : Mode) (code : Value) {mask : EnvId} (env : EnvId) {s : State}
    (hm : s.heap.isMask mask) :
    evalWithData mode code (.env mask) env s =
      evalInMask mode code.body mask (code.scopeOr env) s := by
  have hsome : (Value.env mask).env?.filter s.heap.isMask = some mask := by
    rw [Value.env?, Option.filter_some, hm]
    rfl
  unfold evalWithData
  rw [Attempt.bind_run]
  simp only [Attempt.read, hsome]

namespace State

variable {s t : State} {mask top parent last : EnvId}

/-- The state with the mask pointed at a scope. -/
def pointed (s : State) (mask top scope : EnvId) : State :=
  { s with heap := s.heap.pointAt mask top scope }

/-- A call finds nothing of the history but what was learned: it overwrites both slots. -/
theorem Repointed.evalInMask_eq (hp : s.heap.PointsTo mask top parent)
    (hs : s.heap.Settled s.held) (hparent : parent ∈ s.held) (ht : s.Repointed mask top last t)
    (mode : Mode) (e : Expr) (scope : EnvId) :
    evalInMask mode e mask scope t =
      if s.heap.hasAncestor scope top then (.error .cyclicScope, t)
      else e.eval mode mask ((s.pointed mask top scope).withMemo t.memo) := by
  have hset := hp.settled hs hparent scope
  rw [evalInMask, Attempt.bind_run, pointMask_of_env (ht.pointsTo hp).topEnv]
  obtain ⟨interner, heap, depth, tilde, held⟩ := t
  obtain ⟨hheap, hdepth, hheld, -⟩ := ht
  simp only at hheap hdepth hheld
  subst hheap hdepth hheld
  simp only [Heap.hasAncestor_pointAt, Heap.pointAt_pointAt, Heap.sweep_of_settled hset]
  by_cases ha : s.heap.hasAncestor scope top
  · simp only [ha, if_true]
  · simp only [ha]
    rfl

/-- One call more, accepted or not, and however its evaluation ends. -/
theorem Repointed.ask (mode : Mode) (hp : s.heap.PointsTo mask top parent)
    (hs : s.heap.Settled s.held) (hparent : parent ∈ s.held) (ht : s.Repointed mask top last t)
    (a : Ask) :
    s.Repointed mask top (if t.accepts mask a then a.scope else last) (t.ask mode mask a).2 := by
  have hw := ht.written a
  rw [ht.accepts_eq hp a, State.ask, evalWithData_of_isMask mode a.code a.env (hw.pointsTo hp).isMask,
    hw.evalInMask_eq hp hs hparent, show a.code.scopeOr a.env = a.scope from rfl]
  by_cases ha : s.heap.hasAncestor a.scope top
  · simp only [ha, if_true, Bool.not_true, Bool.false_eq_true, if_false]
    exact hw
  · simp only [ha, Bool.not_false, if_true, Bool.false_eq_true, if_false]
    have hlearned := a.code.body.putsBack_eval mode mask
      ((s.pointed mask top a.scope).withMemo (t.written a).memo) (hp.settled hs hparent a.scope)
    refine ⟨hlearned.heap, hlearned.depth, hlearned.held, ?_⟩
    have hmemo := hlearned.memo
    rw [show ((s.pointed mask top a.scope).withMemo (t.written a).memo).heap.boundTilde =
      s.heap.boundTilde from Heap.boundTilde_pointAt ..] at hmemo
    exact hw.memo.trans hmemo

/-- Any number of calls. -/
theorem Repointed.afterAsks (mode : Mode) (hp : s.heap.PointsTo mask top parent)
    (hs : s.heap.Settled s.held) (hparent : parent ∈ s.held) (asks : List Ask)
    (ht : s.Repointed mask top last t) :
    s.Repointed mask top (t.lastScope mode mask last asks) (t.afterAsks mode mask asks) := by
  induction asks generalizing t last with
  | nil => exact ht
  | cons a asks ih => exact ih (ht.ask mode hp hs hparent a)

/-- The next call gives what it gives as the first one, made with a memory `m` that came
before it and had issued the names of the code. -/
theorem Repointed.next (mode : Mode) (hp : s.heap.PointsTo mask top parent)
    (hs : s.heap.Settled s.held) (hparent : parent ∈ s.held) (hlaw : s.interner.Lawful)
    (hissued : s.heap.Issued s.interner.size) (ht : s.Repointed mask top last t) {m : Memo}
    (hm : ReflTransGen (Memo.Gains s.heap.boundTilde) s.memo m)
    (hmt : ReflTransGen (Memo.Gains s.heap.boundTilde) m t.memo) {code : Value}
    (hcode : code.Issued m.interner.size) (env : EnvId) :
    (evalWithData mode code (.env mask) env t).1 =
      (evalWithData mode code (.env mask) env (s.withMemo m)).1 := by
  have hfirst : s.Repointed mask top parent (s.withMemo m) :=
    ⟨hp.pointAt_self.symm, rfl, rfl, hm⟩
  have hsize : s.interner.size ≤ m.interner.size :=
    ((Memo.Alike.refl hlaw (Nat.le_refl _)).gains .refl hm).interner.issued.2
  have hlawm : m.interner.Lawful :=
    ((Memo.Alike.refl hlaw (Nat.le_refl _)).gains .refl hm).interner.right
  have hnamed : Name.env.index < m.interner.size :=
    Nat.lt_of_lt_of_le (hissued mask .env _ hp.env).1 hsize
  rw [evalWithData_of_isMask mode code env (ht.pointsTo hp).isMask,
    evalWithData_of_isMask mode code env (hfirst.pointsTo hp).isMask, ht.evalInMask_eq hp hs hparent,
    hfirst.evalInMask_eq hp hs hparent]
  by_cases ha : s.heap.hasAncestor (code.scopeOr env) top
  · simp only [ha, if_true]
  · simp only [ha, Bool.false_eq_true, if_false]
    have halike : Memo.Alike m.interner.size (s.pointed mask top (code.scopeOr env)).heap.boundTilde
        m t.memo := by
      rw [show (s.pointed mask top (code.scopeOr env)).heap.boundTilde = s.heap.boundTilde from
        Heap.boundTilde_pointAt ..]
      exact (Memo.Alike.refl hlawm (Nat.le_refl _)).gains .refl hmt
    have hnames : (s.pointed mask top (code.scopeOr env)).heap.Issued m.interner.size :=
      ((hissued.mono hsize).setParent top _).bind mask hnamed trivial
    exact (Expr.steady_eval mode hnamed hcode.body mask (s.pointed mask top (code.scopeOr env))
      (hp.settled hs hparent _) hnames m t.memo halike).1.symm

end State

/-- A mask that was built from data has no history. After any calls on it, in any mode,
and however each of them ended, the state is the one in which it was built but for what
was learned and for the scope, which is that of the last call that the mask accepted, in
the two slots where the mask keeps it. Whatever memory `m` there was on the way, once it
had issued the names of some code, that code gives as the next call what it would have
given as the first. -/
theorem afterAsks_historyIndependent (mode : Mode) {h : Heap} {data : Value} {parent mask : EnvId}
    {s : State} (hbuilt : h.maskOf data parent = .ok (mask, s.heap))
    (hs : s.heap.Settled s.held) (hparent : parent ∈ s.held) (asks : List Ask) :
    let t := s.afterAsks mode mask asks
    s.heap.local? mask .topEnv = some (.env h.newBottom) ∧
    s.Repointed mask h.newBottom (s.lastScope mode mask parent asks) t ∧
    (s.interner.Lawful → s.heap.Issued s.interner.size → ∀ m : Memo,
      ReflTransGen (Memo.Gains s.heap.boundTilde) s.memo m →
      ReflTransGen (Memo.Gains s.heap.boundTilde) m t.memo →
      ∀ (code : Value) (env : EnvId), code.Issued m.interner.size →
        (evalWithData mode code (.env mask) env t).1 =
          (evalWithData mode code (.env mask) env (s.withMemo m)).1) := by
  intro t
  obtain ⟨rfl, hfresh⟩ := Heap.freshMask_maskOf hbuilt
  have hp := hfresh.pointsTo
  have ht := (State.Repointed.refl hp).afterAsks mode hp hs hparent asks
  refine ⟨hp.topEnv, ht, fun hlaw hissued m hm hmt code env hcode => ?_⟩
  exact ht.next mode hp hs hparent hlaw hissued hm hmt hcode env

/-! ### Three calls and one more -/

/-- A mask ⟨3⟩ for `x = 1`, in the global environment. -/
def Heap.sampleMask : Heap :=
  match Heap.initial.maskOf .sampleData .global with
  | .ok (_, h) => h
  | .error _ => .initial

def State.sampleMask : State :=
  { State.initial with
    interner := Interner.initial.internAll ["x"]
    heap := .sampleMask
    held := [.base, .global, ⟨3⟩] }

/-- A call in the base frame, one that the mask refuses, since it is to be evaluated in the
frame of data, and one that fails to find `y`. -/
def Ask.samples : List Ask :=
  [⟨[], .code (.symbol ⟨12⟩), .base⟩, ⟨[], .code (.symbol ⟨12⟩), ⟨2⟩⟩,
    ⟨["y"], .code (.symbol ⟨13⟩), .base⟩]

/-- The mask is left in the base frame, and reads `x` as it would have at first. -/
theorem afterAsks_historyIndependent_samples :
    let t := State.sampleMask.afterAsks .unlimited ⟨3⟩ Ask.samples
    State.sampleMask.heap.Settled State.sampleMask.held ∧
      State.sampleMask.interner.Lawful ∧
      State.sampleMask.heap.Issued State.sampleMask.interner.size ∧
      State.sampleMask.lastScope .unlimited ⟨3⟩ .global Ask.samples = .base ∧
      State.sampleMask.Repointed ⟨3⟩ ⟨2⟩ .base t ∧
      (evalWithData .unlimited (.code (.symbol ⟨12⟩)) (.env ⟨3⟩) .global t).1 =
        (evalWithData .unlimited (.code (.symbol ⟨12⟩)) (.env ⟨3⟩) .global .sampleMask).1 := by
  have hs : State.sampleMask.heap.Settled State.sampleMask.held := by decide +kernel
  have hlaw : State.sampleMask.interner.Lawful := Interner.lawful_internAll Interner.lawful_initial _
  have hissued : State.sampleMask.heap.Issued State.sampleMask.interner.size := by decide +kernel
  have hlast : State.sampleMask.lastScope .unlimited ⟨3⟩ .global Ask.samples = .base := by
    decide +kernel
  have hbuilt : Heap.initial.maskOf .sampleData .global = .ok (⟨3⟩, State.sampleMask.heap) := rfl
  obtain ⟨-, ht, hnext⟩ := afterAsks_historyIndependent .unlimited hbuilt hs (by decide) Ask.samples
  rw [hlast] at ht
  refine ⟨hs, hlaw, hissued, hlast, ht, ?_⟩
  exact hnext hlaw hissued State.sampleMask.memo .refl ht.memo _ _ (by decide +kernel)

end Overscope
