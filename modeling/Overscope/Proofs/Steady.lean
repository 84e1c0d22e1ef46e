-- What was learned does not matter. Two memories that issued the names of the code alike
-- and know the same operator of `~` give the same value or error: there is a lemma for
-- each operation, and then one mutual induction over code and values.
import Overscope.Proofs.Issued

open Relation

namespace Overscope

/-! ## Memories alike -/

/-- What base `~` is, where base binds it to `bound`: what was remembered, or else what
is bound. -/
def Memo.tildeIn (bound : Option Value) (m : Memo) : Except EvalError Primitive :=
  match m.tilde with
  | some p => .ok p
  | none => match bound with
    | some (.builtin p) => .ok p
    | some v => .error (.typeMismatch "primitive `~`" v.typeName)
    | none => .error (.undefinedFunction "~")

/-- The memories issued the first `b` names alike, and have one answer for `~`. -/
structure Memo.Alike (b : Nat) (bound : Option Value) (m m' : Memo) : Prop where
  interner : m.interner.AlikeBelow b m'.interner
  tilde : m.tildeIn bound = m'.tildeIn bound

namespace Memo.Alike

variable {b : Nat} {bound : Option Value} {m m' m₁ m₂ : Memo}

theorem symm (h : Alike b bound m m') : Alike b bound m' m := ⟨h.interner.symm, h.tilde.symm⟩

theorem gains_left (h : Alike b bound m m') (hg : Gains bound m m₁) : Alike b bound m₁ m' := by
  cases hg with
  | text text => exact ⟨h.interner.intern_left text, h.tilde⟩
  | tilde hnew hp =>
    refine ⟨h.interner, ?_⟩
    rw [← h.tilde]
    simp only [tildeIn, hnew, hp]

/-- What is learned on either side leaves them alike. -/
theorem gains (h : Alike b bound m m') (hg : ReflTransGen (Gains bound) m m₁)
    (hg' : ReflTransGen (Gains bound) m' m₂) : Alike b bound m₁ m₂ := by
  have hleft : Alike b bound m₁ m' := by
    induction hg with
    | refl => exact h
    | tail _ hlast ih => exact ih.gains_left hlast
  induction hg' with
  | refl => exact hleft
  | tail _ hlast ih => exact (ih.symm.gains_left hlast).symm

/-- A lawful memory is like itself, for the names that it issued. -/
theorem refl (hm : m.interner.Lawful) (hb : b ≤ m.interner.size) : Alike b bound m m :=
  ⟨⟨hm, hm, ⟨hb, hb⟩, fun _ _ => rfl⟩, rfl⟩

end Memo.Alike

/-! ## Steady steps -/

variable {α β : Type} {b : Nat} {P : α → Prop} {Q : β → Prop}

/-- The outcome is the same whatever was learned, if the first `b` names are alike and
the frames have no other names. A value satisfies `P`. -/
def Steady (b : Nat) (P : α → Prop) (x : EvalM α) : Prop :=
  ∀ s : State, s.heap.Settled s.held → s.heap.Issued b → ∀ m m' : Memo,
    Memo.Alike b s.heap.boundTilde m m' →
    (x (s.withMemo m)).1 = (x (s.withMemo m')).1 ∧ ∀ a, (x (s.withMemo m)).1 = .ok a → P a

theorem steady_pure {a : α} (ha : P a) : Steady b P (pure a) := by
  refine fun s _ _ m m' _ => ⟨rfl, fun a' h => ?_⟩
  cases h
  exact ha

theorem steady_fail (e : EvalError) : Steady b P (.fail e) :=
  fun _ _ _ _ _ _ => ⟨rfl, fun _ h => by cases h⟩

theorem steady_ofExcept {r : Except EvalError α} (hr : ∀ a, r = .ok a → P a) :
    Steady b P (.ofExcept r) :=
  fun _ _ _ _ _ _ => ⟨rfl, hr⟩

/-- Reading off the scope graph. -/
theorem steady_read {f : Heap → α} (hf : ∀ h : Heap, h.Issued b → P (f h)) :
    Steady b P (.read fun s : State => f s.heap) := by
  refine fun s _ hi m m' _ => ⟨rfl, fun a h => ?_⟩
  cases h
  exact hf s.heap hi

theorem steady_bind {x : EvalM α} {f : α → EvalM β} (hput : PutsBack x) (hx : Steady b P x)
    (hf : ∀ a, P a → Steady b Q (f a)) : Steady b Q (x >>= f) := by
  intro s hs hi m m' hm
  obtain ⟨hsame, hvalue⟩ := hx s hs hi m m' hm
  have hleft := hput (s.withMemo m) hs
  have hright := hput (s.withMemo m') hs
  rw [Attempt.bind_run, Attempt.bind_run]
  rcases hr : x (s.withMemo m) with ⟨r, t⟩
  rcases hr' : x (s.withMemo m') with ⟨r', t'⟩
  rw [hr] at hsame hvalue hleft
  rw [hr'] at hsame hright
  obtain rfl : r = r' := hsame
  cases r with
  | error e => exact ⟨rfl, fun a h => by cases h⟩
  | ok a =>
    -- The second step starts from the same state, with what both sides have learned.
    have ht : t = s.withMemo t.memo := hleft.eq_withMemo
    have ht' : t' = s.withMemo t'.memo := hright.eq_withMemo
    have hnext := hf a (hvalue a rfl) s hs hi t.memo t'.memo (hm.gains hleft.memo hright.memo)
    rw [← ht, ← ht'] at hnext
    exact hnext

/-- Failures that tell an issued name by its text. -/
theorem steady_fail_text {n : Name} (hn : n.index < b) (e : String → EvalError) :
    Steady b P (nameText n >>= fun text => .fail (e text)) := by
  refine fun s _ _ m m' hm => ⟨?_, fun a h => by cases h⟩
  have htext : m.interner.text n = m'.interner.text n := hm.interner.text hn
  show Except.error (e (m.interner.text n)) = _
  rw [htext]
  rfl

theorem steady_nested (mode : Mode) {x : EvalM α} (hx : Steady b P x) :
    Steady b P (nested mode x) := by
  intro s hs hi m m' hm
  have hbody := hx { s with depth := s.depth + 1 } hs hi m m' hm
  unfold nested
  cases mode.limit? with
  | none => exact hbody
  | some limit =>
    by_cases hlim : limit < s.depth + 1
    · have hdeep : limit < (s.withMemo m).depth + 1 ∧ limit < (s.withMemo m').depth + 1 :=
        ⟨hlim, hlim⟩
      simp only [if_pos hdeep.1, if_pos hdeep.2]
      exact ⟨trivial, fun a h => by cases h⟩
    · have hdeep : ¬ limit < (s.withMemo m).depth + 1 ∧ ¬ limit < (s.withMemo m').depth + 1 :=
        ⟨hlim, hlim⟩
      simp only [if_neg hdeep.1, if_neg hdeep.2]
      exact hbody

theorem steady_withBinding {x : EvalM α} (hx : Steady b P x) (e : EnvId) {name : Name}
    (hn : name.index < b) (htilde : name ≠ .tilde) {v : Value} (hv : v.Issued b) :
    Steady b P (withBinding e name v x) := by
  intro s hs hi m m' hm
  rw [← Heap.boundTilde_bind s.heap e htilde v] at hm
  exact hx { s with heap := s.heap.bind e name v,
                    held := joinHandles (Guard.binding e name (s.heap.local? e name)).handles s.held }
    (Heap.settled_bind hs e name v) (hi.bind e hn hv) m m' hm

theorem steady_withParent {x : EvalM α} (hx : Steady b P x) (e parent : EnvId) :
    Steady b P (withParent e parent x) := by
  intro s hs hi m m' hm
  by_cases ha : s.heap.hasAncestor parent e
  · rw [withParent_run_error (s := s.withMemo m) ha, withParent_run_error (s := s.withMemo m') ha]
    exact ⟨rfl, fun a h => by cases h⟩
  · rw [withParent_run_ok (s := s.withMemo m) ha, withParent_run_ok (s := s.withMemo m') ha]
    rw [← Heap.boundTilde_setParent s.heap e (some parent)] at hm
    exact hx { s with heap := s.heap.setParent e (some parent),
                      held := joinHandles (Guard.parent e (s.heap.parent? e)).handles s.held }
      (Heap.settled_setParent hs e (some parent)) (hi.setParent e (some parent)) m m' hm

/-! ## Operators -/

/-- An operand with issued names that is steady wherever it is run. -/
structure Operand.Steady (b : Nat) (op : Operand) : Prop where
  putsBack : op.PutsBack
  code : op.code.Issued b
  run : ∀ env, Overscope.Steady b (Value.Issued b) (op.run env)

/-- A call of steady operands whose own names are issued. -/
structure CallSite.Steady (b : Nat) (site : CallSite) : Prop where
  head : site.head.Issued b
  object : ∀ f ∈ site.object, f.toValue.Issued b
  operands : ∀ op ∈ site.operands, op.Steady b

theorem steady_member {v : Value} (hv : v.Issued b) {n : Name} (hn : n.index < b) :
    Steady b (Value.Issued b) (v.member n) := by
  cases v with
  | pronoun source absence =>
    refine steady_bind (P := fun found => ∀ w ∈ found, w.Issued b) (putsBack_read _)
      (steady_read (f := fun h => source.get? h n) fun h hi w hw =>
        (DataSource.issued_get? hi hv hw).2) fun found hfound => ?_
    cases found with
    | none => exact steady_fail_text hn _
    | some w => exact steady_pure (hfound w rfl)
  | list kind entries =>
    apply steady_pure
    rcases hg : entries.get? n with _ | w
    · trivial
    · exact (Entries.issued_get? hv hg).2
  | env e =>
    refine steady_read (f := fun h => (h.local? e n).getD .null) fun h hi => ?_
    rcases hg : h.local? e n with _ | w
    · trivial
    · exact (hi e n w hg).2
  | _ => exact steady_fail _

/-- Under names that were not issued there is nothing, whichever they are. -/
theorem member_of_not_issued {v : Value} (hv : v.Issued b) {s t : State} (hi : s.heap.Issued b)
    (hheap : t.heap = s.heap) {n n' : Name} (hn : b ≤ n.index) (hn' : b ≤ n'.index)
    (htext : s.interner.text n = t.interner.text n') :
    (v.member n s).1 = (v.member n' t).1 ∧ ∀ a, (v.member n s).1 = .ok a → a.Issued b := by
  cases v with
  | pronoun source absence =>
    have hnone : ∀ k : Name, b ≤ k.index → source.get? s.heap k = none := fun k hk => by
      rcases hg : source.get? s.heap k with _ | w
      · rfl
      · exact absurd (DataSource.issued_get? hi hv hg).1 (Nat.not_lt.2 hk)
    simp only [Value.member, Attempt.bind_run, Attempt.read, hheap, hnone n hn, hnone n' hn',
      nameText, htext, Attempt.fail]
    exact ⟨trivial, fun a h => by cases h⟩
  | list kind entries =>
    have hnone : ∀ k : Name, b ≤ k.index → entries.get? k = none := fun k hk => by
      rcases hg : entries.get? k with _ | w
      · rfl
      · exact absurd (Entries.issued_get? hv hg).1 (Nat.not_lt.2 hk)
    simp only [Value.member, hnone n hn, hnone n' hn', Attempt.pure_run, Option.getD_none]
    exact ⟨trivial, fun a h => by cases h; trivial⟩
  | env e =>
    have hnone : ∀ k : Name, b ≤ k.index → s.heap.local? e k = none := fun k hk => by
      rcases hg : s.heap.local? e k with _ | w
      · rfl
      · exact absurd (hi e k w hg).1 (Nat.not_lt.2 hk)
    simp only [Value.member, Attempt.read, hheap, hnone n hn, hnone n' hn', Option.getD_none]
    exact ⟨trivial, fun a h => by cases h; trivial⟩
  | _ => exact ⟨rfl, fun a h => by cases h⟩

/-- A member is the same, also when its name is new and so another one on each side. -/
theorem steady_memberName {v : Value} (hv : v.Issued b) {e : Expr} (he : e.Issued b) :
    Steady b (Value.Issued b) (e.memberName >>= fun name => v.member name) := by
  cases e with
  | const c =>
    cases c with
    | str text =>
      intro s hs hi m m' hm
      let k : Memo := { m with interner := (m.interner.intern text).2 }
      let k' : Memo := { m' with interner := (m'.interner.intern text).2 }
      have hk : Memo.Alike b s.heap.boundTilde k k' :=
        hm.gains (.single (.text text)) (.single (.text text))
      show (v.member (m.interner.intern text).1 (s.withMemo k)).1 =
          (v.member (m'.interner.intern text).1 (s.withMemo k')).1 ∧ ∀ a,
          (v.member (m.interner.intern text).1 (s.withMemo k)).1 = .ok a → a.Issued b
      rcases Nat.lt_or_ge (m.interner.intern text).1.index b with hn | hn
      · rw [hm.interner.name_eq hn]
        exact steady_member hv hn s hs hi k k' hk
      · have hn' : b ≤ (m'.interner.intern text).1.index :=
          Nat.le_of_not_lt fun hlt => Nat.not_lt.2 hn (hm.interner.symm.name_eq hlt ▸ hlt)
        have htext : k.interner.text (m.interner.intern text).1 =
            k'.interner.text (m'.interner.intern text).1 :=
          (Interner.text_intern hm.interner.left text).trans
            (Interner.text_intern hm.interner.right text).symm
        exact @member_of_not_issued b v hv (s.withMemo k) (s.withMemo k') hi rfl _ _ hn hn' htext
    | _ => exact steady_fail _
  | symbol n => exact steady_member hv he
  | _ => exact steady_fail _

theorem steady_evalOperands {ops : List Operand} (hops : ∀ op ∈ ops, op.Steady b) (env : EnvId) :
    Steady b (fun _ => True) (evalOperands ops env) := by
  induction ops with
  | nil => exact steady_pure trivial
  | cons op ops ih =>
    have hop := hops op (List.mem_cons_self ..)
    have hrest : ∀ op' ∈ ops, op'.Steady b := fun op' h => hops op' (List.mem_cons_of_mem _ h)
    refine steady_bind (hop.putsBack env) (hop.run env) fun v _ => ?_
    exact steady_bind (putsBack_evalOperands (fun op' h => (hrest op' h).putsBack) env) (ih hrest)
      fun vs _ => steady_pure trivial

theorem baseTilde_outcome (s : State) :
    (baseTilde s).1 = s.memo.tildeIn s.heap.boundTilde := by
  obtain ⟨interner, heap, depth, tilde, held⟩ := s
  cases tilde with
  | some p => rfl
  | none =>
    simp only [baseTilde, Attempt.bind_run, Attempt.read, Memo.tildeIn, State.memo, Heap.boundTilde]
    rcases heap.local? .base .tilde with _ | w
    · rfl
    · cases w <;> rfl

theorem steady_baseTilde : Steady b (fun _ => True) baseTilde := by
  refine fun s _ _ m m' hm => ⟨?_, fun _ _ => trivial⟩
  rw [baseTilde_outcome, baseTilde_outcome]
  exact hm.tilde

/-- An integer or a float, which has no names in it and holds no frames. -/
def Value.IsNumber : Value → Prop
  | .int _ | .float _ => True
  | _ => False

theorem Value.IsNumber.issued {v : Value} (hv : v.IsNumber) : v.Issued b := by
  cases v with
  | int n => trivial
  | float x => trivial
  | _ => exact absurd hv id

theorem Value.IsNumber.handles_eq_nil {v : Value} (hv : v.IsNumber) : v.handles = [] := by
  cases v with
  | int n => rfl
  | float x => rfl
  | _ => exact absurd hv id

theorem isNumber_exactInt {operation : String} {n : Int} {v : Value}
    (hv : exactInt operation n = .ok v) : v.IsNumber := by
  unfold exactInt at hv
  split at hv
  · cases hv
    trivial
  · cases hv

theorem isNumber_onInts {op : Operator} {m n : Int64} {v : Value} (hv : op.onInts m n = .ok v) :
    v.IsNumber := by
  cases op with
  | div =>
    simp only [Operator.onInts] at hv
    split at hv
    · cases hv
    · cases hv
      trivial
  | _ => exact isNumber_exactInt hv

theorem isNumber_between {op : Operator} {w u v : Value} (hv : op.between w u = .ok v) :
    v.IsNumber := by
  unfold Operator.between at hv
  split at hv
  · exact isNumber_onInts hv
  · rcases hw : w.numeric with _ | x <;> rcases hu : u.numeric with _ | y <;>
      simp only [hw, hu] at hv <;> cases hv
    trivial

theorem isNumber_negate {w v : Value} (hv : w.negate = .ok v) : v.IsNumber := by
  cases w with
  | int n => exact isNumber_exactInt hv
  | float x =>
    cases hv
    trivial
  | _ => cases hv

/-- The result of an operator is a number. -/
theorem isNumber_apply {op : Operator} {vs : List Value} {v : Value} (hv : op.apply vs = .ok v) :
    v.IsNumber := by
  rcases vs with _ | ⟨w, _ | ⟨u, _ | _⟩⟩
  · cases hv
  · cases op with
    | add => cases w <;> cases hv <;> trivial
    | sub => exact isNumber_negate hv
    | _ => cases hv
  · exact isNumber_between hv
  · cases hv

theorem steady_requireOnChain (overscope top : EnvId) :
    Steady b (fun _ => True) (requireOnChain overscope top) := by
  refine steady_bind (P := fun _ => True) (putsBack_read _)
    (steady_read (f := fun h => h.hasAncestor overscope top) fun _ _ => trivial) fun found _ => ?_
  cases found with
  | true => exact steady_pure trivial
  | false => exact steady_fail _

theorem steady_localEnv (e : EnvId) {name : Name} (hn : name.index < b) :
    Steady b (fun _ => True) (localEnv e name) := by
  refine steady_bind (P := fun _ => True) (putsBack_read _)
    (steady_read (f := fun h => h.local? e name) fun _ _ => trivial) fun found _ => ?_
  cases found with
  | none => exact steady_fail_text hn _
  | some v =>
    cases v with
    | env f => exact steady_pure trivial
    | _ => exact steady_fail _

theorem steady_targetScope (hb : Name.env.index < b) (own : Option EnvId) (overscope : EnvId) :
    Steady b (fun _ => True) (targetScope own overscope) := by
  cases own with
  | some e => exact steady_pure trivial
  | none => exact steady_localEnv overscope hb

theorem steady_withScope (hb : Name.env.index < b) {x : EvalM α} (hx : Steady b P x)
    (overscope top target : EnvId) : Steady b P (withScope overscope top target x) := by
  refine steady_bind (P := fun _ => True) (putsBack_read _)
    (steady_read (f := fun h => h.isMask overscope) fun _ _ => trivial) fun isMask _ => ?_
  have hparent := steady_withParent hx top target
  cases isMask with
  | true => exact steady_withBinding hparent overscope hb (by decide) trivial
  | false => exact hparent

theorem steady_resolve {head : Head} (hh : head.Issued b) (env : EnvId) :
    Steady b (fun _ => True) (head.resolve env) := by
  cases head with
  | inlined p => exact steady_pure trivial
  | symbol name =>
    refine steady_bind (P := fun _ => True) (putsBack_read _)
      (steady_read (f := fun h => (h.resolveWhere? env name Value.isCallable).bind Value.callable?)
        fun _ _ => trivial) fun found _ => ?_
    cases found with
    | none => exact steady_fail_text hh _
    | some c => exact steady_pure trivial

theorem steady_frames (t : Override) : Steady b (fun _ => True) t.frames := by
  refine steady_bind (P := fun _ => True) (putsBack_read _)
    (steady_read (f := fun h => h.isLive t.mask && h.isLive t.top) fun _ _ => trivial)
    fun alive _ => ?_
  cases alive with
  | true => exact steady_pure trivial
  | false => exact steady_fail _

/-! ## Calls and expressions -/

namespace CallSite

variable {site : CallSite}

theorem Steady.putsBack (h : site.Steady b) : ∀ op ∈ site.operands, op.PutsBack :=
  fun op hop => (h.operands op hop).putsBack

theorem Steady.args (h : site.Steady b) : site.args.Issued b := by
  rw [Args.issued_iff, CallSite.args, Args.toList_ofList]
  intro e he
  obtain ⟨op, hop, rfl⟩ := List.mem_map.1 he
  exact (h.operands op hop).code

theorem steady_apply (h : site.Steady b) (env : EnvId) (p : Primitive) :
    Overscope.Steady b (Value.Issued b) (site.apply env p) := by
  have hargs := h.args
  obtain ⟨head, ops, object⟩ := site
  have hops := h.operands
  cases p with
  | tilde =>
    apply steady_pure
    cases object with
    | none => exact ⟨h.head, hargs⟩
    | some f => exact h.object f rfl
  | quote =>
    rcases ops with _ | ⟨op, _ | _⟩
    · exact steady_fail _
    · exact steady_pure (hops op (List.mem_cons_self ..)).code.quoted
    · exact steady_fail _
  | member =>
    rcases ops with _ | ⟨target, _ | ⟨member, _ | _⟩⟩
    · exact steady_fail _
    · exact steady_fail _
    · have htarget := hops target (List.mem_cons_self ..)
      have hmember := hops member (List.mem_cons_of_mem _ (List.mem_cons_self ..))
      refine steady_bind (htarget.putsBack env) (htarget.run env) fun v hv => ?_
      exact steady_memberName hv hmember.code
    · exact steady_fail _
  | arithmetic op =>
    refine steady_bind (putsBack_evalOperands h.putsBack env) (steady_evalOperands hops env)
      fun vs _ => ?_
    exact steady_ofExcept fun v hv => (isNumber_apply hv).issued

theorem steady_toFormula (h : site.Steady b) (hb : Name.env.index < b) (mode : Mode)
    (env : EnvId) : Overscope.Steady b (Value.Issued b) (site.toFormula mode env) := by
  have htilde : Name.tilde.index < b := Nat.lt_trans (by decide) hb
  unfold toFormula
  split
  · next hobj => exact steady_pure (h.object _ hobj)
  · refine steady_bind putsBack_baseTilde steady_baseTilde fun p _ => ?_
    have hbare : (CallSite.mk (.inlined p) site.operands none).Steady b :=
      ⟨trivial, nofun, h.operands⟩
    refine steady_bind (putsBack_nested mode (putsBack_apply hbare.putsBack env p))
      (steady_nested mode (steady_apply hbare env p)) fun v hv => ?_
    cases v with
    | formula head args own kind => exact steady_pure ⟨htilde, hv.2⟩
    | _ => exact steady_pure hv

theorem steady_evalQuosure (h : site.Steady b) (hb : Name.env.index < b) (own : Option EnvId)
    (overscope top : EnvId) :
    Overscope.Steady b (Value.Issued b) (site.evalQuosure own overscope top) := by
  unfold evalQuosure
  rcases hlast : site.operands.getLast? with _ | rhs
  · exact steady_pure trivial
  · have hrhs := h.operands rhs (List.mem_of_getLast? hlast)
    simp only
    split
    · exact steady_pure trivial
    split
    · exact hrhs.run overscope
    refine steady_bind (putsBack_requireOnChain overscope top) (steady_requireOnChain overscope top)
      fun _ _ => ?_
    refine steady_bind (putsBack_targetScope own overscope) (steady_targetScope hb own overscope)
      fun target _ => ?_
    exact steady_withScope hb (hrhs.run overscope) overscope top target

theorem steady_overridden (h : site.Steady b) (hb : Name.env.index < b) (mode : Mode)
    (overscope top : EnvId) :
    Overscope.Steady b (Value.Issued b) (site.overridden mode overscope top) := by
  unfold overridden
  split
  · exact steady_evalQuosure h hb _ overscope top
  · exact steady_toFormula h hb mode overscope

theorem steady_eval (h : site.Steady b) (hb : Name.env.index < b) (mode : Mode) (env : EnvId) :
    Overscope.Steady b (Value.Issued b) (site.eval mode env) := by
  refine steady_nested mode (steady_bind (putsBack_resolve site.head env)
    (steady_resolve h.head env) fun c _ => ?_)
  cases c with
  | builtin p => exact steady_apply h env p
  | override t =>
    exact steady_bind (putsBack_frames t) (steady_frames t) fun _ _ =>
      steady_overridden h hb mode _ _

end CallSite

mutual

/-- Evaluation gives the same value or error whatever texts got names since those of the
code, and whether the operator of `~` was asked for before. -/
theorem Expr.steady_eval (mode : Mode) (hb : Name.env.index < b) {e : Expr} (he : e.Issued b)
    (env : EnvId) : Steady b (Value.Issued b) (e.eval mode env) := by
  cases e with
  | const v => exact Value.steady_evalInlined mode hb he env
  | symbol name =>
    refine steady_bind (P := fun found => ∀ w ∈ found, w.Issued b) (putsBack_read _)
      (steady_read (f := fun h => h.resolve? env name) fun h hi w hw => hi.resolve? hw)
      fun found hfound => ?_
    cases found with
    | none => exact steady_fail_text he _
    | some v => exact steady_pure (hfound v rfl)
  | call head args =>
    have hsite : (CallSite.mk head (args.operands mode) none).Steady b :=
      ⟨he.1, nofun, Args.steady_operands mode hb he.2⟩
    exact CallSite.steady_eval hsite hb mode env
  | missing => exact steady_pure trivial

theorem Value.steady_evalInlined (mode : Mode) (hb : Name.env.index < b) {v : Value}
    (hv : v.Issued b) (env : EnvId) : Steady b (Value.Issued b) (v.evalInlined mode env) := by
  cases v with
  | formula head args own kind =>
    have hsite : (CallSite.mk head (args.operands mode) (some ⟨head, args, own, kind⟩)).Steady b :=
      ⟨hv.1, fun f hf => by cases hf; exact hv, Args.steady_operands mode hb hv.2⟩
    exact CallSite.steady_eval hsite hb mode env
  | _ => exact steady_pure hv

theorem Args.steady_operands (mode : Mode) (hb : Name.env.index < b) {args : Args}
    (hargs : args.Issued b) : ∀ op ∈ args.operands mode, op.Steady b := by
  cases args with
  | nil => simp [Args.operands]
  | cons e rest =>
    intro op hop
    rcases List.mem_cons.1 hop with rfl | hrest
    · exact ⟨e.putsBack_eval mode, hargs.1, Expr.steady_eval mode hb hargs.1⟩
    · exact Args.steady_operands mode hb hargs.2 op hrest

end

end Overscope
