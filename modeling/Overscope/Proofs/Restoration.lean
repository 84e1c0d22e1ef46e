-- What evaluation leaves behind. Whatever it rewires is put back, so the scope graph
-- is the old one, and all that may be new was learned: texts that got names, and the
-- operator that base binds to `~`. What is known is never unlearned.
import Overscope.Proofs.Refinement

namespace Overscope

/-! ## Learning -/

/-- The second interner knows all that the first one knows: texts were added at the
end alone, and no text has another name. -/
structure Interner.Extends (i j : Interner) : Prop where
  texts : i.texts.toList <+: j.texts.toList
  names : ∀ text n, i.names.get? text = some n → j.names.get? text = some n

/-- The second memory holds all that the first one holds. -/
structure Memo.Extends (m m' : Memo) : Prop where
  interner : m.interner.Extends m'.interner
  tilde : ∀ p, m.tilde = some p → m'.tilde = some p

namespace Interner

theorem extends_refl (i : Interner) : i.Extends i := ⟨List.prefix_refl _, fun _ _ h => h⟩

theorem Extends.trans {i j k : Interner} (hij : i.Extends j) (hjk : j.Extends k) : i.Extends k :=
  ⟨hij.texts.trans hjk.texts, fun text n h => hjk.names text n (hij.names text n h)⟩

/-- A new text comes after the old ones. -/
theorem extends_intern (i : Interner) (text : String) : i.Extends (i.intern text).2 := by
  unfold intern
  rcases hn : i.names.get? text with _ | n
  · refine ⟨?_, fun old n hold => ?_⟩
    · rw [Array.toList_push]
      exact List.prefix_append _ _
    · rw [Table.get?_insert]
      by_cases heq : text = old
      · rw [heq, hold] at hn
        cases hn
      · rw [if_neg heq]
        exact hold
  · exact extends_refl i

/-- The text of an issued name stays. -/
theorem Extends.text_eq {i j : Interner} (h : i.Extends j) {n : Name} (hn : n.index < i.size) :
    j.text n = i.text n := by
  obtain ⟨rest, hrest⟩ := h.texts
  have hlt : n.index < i.texts.toList.length := hn
  rw [text, text, ← Array.getElem?_toList, ← Array.getElem?_toList, ← hrest,
    List.getElem?_append_left hlt]

end Interner

namespace Memo

theorem extends_refl (m : Memo) : m.Extends m := ⟨m.interner.extends_refl, fun _ h => h⟩

theorem Extends.trans {m₁ m₂ m₃ : Memo} (h : m₁.Extends m₂) (h' : m₂.Extends m₃) :
    m₁.Extends m₃ :=
  ⟨h.interner.trans h'.interner, fun p hp => h'.tilde p (h.tilde p hp)⟩

end Memo

/-! ## Steps that only learn -/

variable {α β : Type}

/-- From any memory the step ends with one that holds all of it. -/
def Learns (y : ViewM α) : Prop := ∀ m : Memo, m.Extends (y m).2

theorem learns_pure (a : α) : Learns (pure a : ViewM α) := fun m => m.extends_refl

theorem learns_fail (e : EvalError) : Learns (.fail e : ViewM α) := fun m => m.extends_refl

theorem learns_bind {x : ViewM α} {f : α → ViewM β} (hx : Learns x) (hf : ∀ a, Learns (f a)) :
    Learns (x >>= f) := by
  intro m
  have hm := hx m
  rw [Attempt.bind_run]
  rcases hr : x m with ⟨_ | a, m'⟩
  · rw [hr] at hm
    exact hm
  · rw [hr] at hm
    exact hm.trans (hf a m')

/-- Failures that tell a name by its text. -/
theorem learns_fail_text (n : Name) (e : String → EvalError) :
    Learns (textOf n >>= fun text => (.fail (e text) : ViewM α)) :=
  fun m => m.extends_refl

theorem learns_deeper {body : Option Allowance → ViewM α} (hb : ∀ d, Learns (body d))
    (d : Option Allowance) : Learns (deeper d body) := by
  unfold deeper
  split
  · exact hb _
  · exact learns_fail _
  · exact hb _

def ViewOperand.Learns (op : ViewOperand) : Prop := ∀ v d env, Overscope.Learns (op.run v d env)

theorem learns_memberNameIn (e : Expr) : Learns e.memberNameIn := by
  cases e with
  | const v =>
    cases v with
    | str s => exact fun m => ⟨m.interner.extends_intern s, fun _ h => h⟩
    | _ => exact learns_fail _
  | symbol n => exact learns_pure n
  | _ => exact learns_fail _

theorem learns_memberIn (view : View) (target : Value) (name : Name) :
    Learns (target.memberIn view name) := by
  cases target with
  | pronoun source absence =>
    simp only [Value.memberIn]
    rcases source.getIn? view name with _ | w
    · exact learns_fail_text name _
    · exact learns_pure w
  | list kind entries => exact learns_pure _
  | env e => exact learns_pure _
  | _ => exact learns_fail _

theorem learns_evalOperandsIn (v : View) (d : Option Allowance) (env : EnvId)
    {ops : List ViewOperand} (hops : ∀ op ∈ ops, op.Learns) : Learns (evalOperandsIn v d env ops) := by
  induction ops with
  | nil => exact learns_pure []
  | cons op ops ih =>
    refine learns_bind (hops op (List.mem_cons_self ..) v d env) fun w => ?_
    exact learns_bind (ih fun op' hop => hops op' (List.mem_cons_of_mem _ hop)) fun ws =>
      learns_pure (w :: ws)

theorem learns_baseTildeIn (v : View) : Learns (baseTildeIn v) := by
  intro m
  obtain ⟨interner, tilde⟩ := m
  simp only [baseTildeIn, Attempt.bind_run, Attempt.read]
  cases tilde with
  | some p => exact Memo.extends_refl _
  | none =>
    rcases v.local? .base .tilde with _ | w
    · exact Memo.extends_refl _
    · cases w with
      | builtin p => exact ⟨interner.extends_refl, fun _ h => by cases h⟩
      | _ => exact Memo.extends_refl _

theorem learns_targetIn (v : View) (own : Option EnvId) (overscope : EnvId) :
    Learns (targetIn v own overscope) := by
  cases own with
  | some e => exact learns_pure e
  | none =>
    unfold targetIn
    rcases v.local? overscope .env with _ | w
    · exact learns_fail_text .env _
    · cases w with
      | env e => exact learns_pure e
      | _ => exact learns_fail _

namespace ViewSite

variable {site : ViewSite} (hops : ∀ op ∈ site.operands, op.Learns)

include hops

theorem learns_applyIn (v : View) (d : Option Allowance) (env : EnvId) (p : Primitive) :
    Learns (site.applyIn v d env p) := by
  obtain ⟨head, ops, object⟩ := site
  cases p with
  | tilde => exact learns_pure _
  | quote =>
    rcases ops with _ | ⟨op, _ | _⟩
    · exact learns_fail _
    · exact learns_pure _
    · exact learns_fail _
  | member =>
    rcases ops with _ | ⟨target, _ | ⟨member, _ | _⟩⟩
    · exact learns_fail _
    · exact learns_fail _
    · refine learns_bind (hops target (List.mem_cons_self ..) v d env) fun w => ?_
      exact learns_bind (learns_memberNameIn member.code) fun name => learns_memberIn v w name
    · exact learns_fail _
  | arithmetic op =>
    exact learns_bind (learns_evalOperandsIn v d env hops) fun ws m => m.extends_refl

/-- Building a formula with an operator. -/
theorem learns_builtIn (v : View) (d : Option Allowance) (env : EnvId) (p : Primitive) :
    Learns (do
      let w ← deeper d fun d => applyIn ⟨.inlined p, site.operands, none⟩ v d env p
      match w with
      | .formula _ args own kind => pure (.formula (.symbol .tilde) args own kind)
      | w => pure w) := by
  have hbare : ∀ op ∈ (ViewSite.mk (.inlined p) site.operands none).operands, op.Learns := hops
  refine learns_bind (learns_deeper (fun d => learns_applyIn hbare v d env p) d) fun w => ?_
  cases w <;> exact learns_pure _

theorem learns_toFormulaIn (v : View) (d : Option Allowance) (env : EnvId) :
    Learns (site.toFormulaIn v d env) := by
  unfold toFormulaIn
  split
  · exact learns_pure _
  · exact learns_bind (learns_baseTildeIn v) fun p => learns_builtIn hops v d env p

theorem learns_quosureIn (own : Option EnvId) (v : View) (d : Option Allowance)
    (overscope top : EnvId) : Learns (site.quosureIn own v d overscope top) := by
  unfold quosureIn
  rcases hlast : site.operands.getLast? with _ | rhs
  · exact learns_pure _
  · have hrhs := hops rhs (List.mem_of_getLast? hlast)
    simp only
    split
    · exact learns_pure _
    split
    · exact hrhs v d overscope
    split
    · exact learns_fail _
    refine learns_bind (learns_targetIn v own overscope) fun target => ?_
    split
    · exact learns_fail _
    · exact hrhs _ d overscope

theorem learns_overriddenIn (v : View) (d : Option Allowance) (overscope top : EnvId) :
    Learns (site.overriddenIn v d overscope top) := by
  unfold overriddenIn
  split
  · exact learns_quosureIn hops _ v d overscope top
  · exact learns_toFormulaIn hops v d overscope

/-- Calling what the head stands for. -/
theorem learns_calledIn (v : View) (d : Option Allowance) (env : EnvId) (c : Callable) :
    Learns (match c with
      | .builtin p => site.applyIn v d env p
      | .override t =>
        if v.isLive t.mask && v.isLive t.top then site.overriddenIn v d t.mask t.top
        else .fail .maskDropped) := by
  cases c with
  | builtin p => exact learns_applyIn hops v d env p
  | override t =>
    simp only
    split
    · exact learns_overriddenIn hops v d t.mask t.top
    · exact learns_fail _

theorem learns_evalIn (v : View) (d : Option Allowance) (env : EnvId) :
    Learns (site.evalIn v d env) := by
  refine learns_deeper (fun d => learns_bind ?_ (learns_calledIn hops v d env)) d
  cases site.head with
  | inlined p => exact learns_pure _
  | symbol name =>
    simp only [Head.resolveIn]
    rcases (v.resolveWhere? env name Value.isCallable).bind Value.callable? with _ | c
    · exact learns_fail_text name _
    · exact learns_pure c

end ViewSite

mutual

theorem Expr.learns_evalIn (e : Expr) (v : View) (d : Option Allowance) (env : EnvId) :
    Learns (e.evalIn v d env) := by
  cases e with
  | const w => exact w.learns_evalInlinedIn v d env
  | symbol name =>
    simp only [Expr.evalIn]
    rcases v.resolve? env name with _ | w
    · exact learns_fail_text name _
    · exact learns_pure w
  | call head args => exact ViewSite.learns_evalIn args.learns_operandsIn v d env
  | missing => exact learns_pure _

theorem Value.learns_evalInlinedIn (w : Value) (v : View) (d : Option Allowance) (env : EnvId) :
    Learns (w.evalInlinedIn v d env) := by
  cases w with
  | formula head args own kind => exact ViewSite.learns_evalIn args.learns_operandsIn v d env
  | _ => exact learns_pure _

theorem Args.learns_operandsIn (args : Args) : ∀ op ∈ args.operandsIn, op.Learns := by
  cases args with
  | nil => simp [Args.operandsIn]
  | cons e rest =>
    intro op hop
    rcases List.mem_cons.1 hop with rfl | hrest
    · exact e.learns_evalIn
    · exact rest.learns_operandsIn op hrest

end

theorem Value.learns_viewSite? {v : Value} {site : ViewSite} (hv : v.viewSite? = some site) :
    ∀ op ∈ site.operands, op.Learns := by
  unfold Value.viewSite? at hv
  split at hv
  · next args _ _ =>
    obtain rfl := Option.some.inj hv
    exact args.learns_operandsIn
  · next args =>
    obtain rfl := Option.some.inj hv
    exact args.learns_operandsIn
  · cases hv

theorem Value.learns_evalTildeIn (v : Value) (view : View) (d : Option Allowance)
    (overscope top : EnvId) : Learns (v.evalTildeIn view d overscope top) := by
  unfold Value.evalTildeIn
  split
  · next hv => exact ViewSite.learns_overriddenIn (Value.learns_viewSite? hv) view d overscope top
  · exact learns_fail _

theorem Value.learns_toFormulaIn (v : Value) (view : View) (d : Option Allowance) (env : EnvId) :
    Learns (v.toFormulaIn view d env) := by
  unfold Value.toFormulaIn
  split
  · next hv => exact ViewSite.learns_toFormulaIn (Value.learns_viewSite? hv) view d env
  · exact learns_fail _

/-! ## What evaluation leaves behind -/

/-- The second state is the first one, but for what was learned. All frames are the
same ones: each is as alive as before, has the parent it had, and binds what it
bound in the order in which it did, and there is no other frame. -/
structure State.OnlyLearned (s s' : State) : Prop where
  heap : s'.heap = s.heap
  depth : s'.depth = s.depth
  held : s'.held = s.held
  memo : s.memo.Extends s'.memo

theorem onlyLearned_of_follows {mode : Mode} {x : EvalM α} {y : View → Option Allowance → ViewM α}
    (hx : Follows mode x y) (hy : ∀ v d, Learns (y v d)) {s : State} (hs : s.Sound) :
    s.OnlyLearned (x s).2 := by
  rw [hx s hs]
  exact ⟨rfl, rfl, rfl, hy s.heap.view (mode.allowance s.depth) s.memo⟩

theorem Expr.onlyLearned_eval {s : State} (hs : s.Sound) (mode : Mode) (e : Expr) (env : EnvId) :
    s.OnlyLearned (e.eval mode env s).2 :=
  onlyLearned_of_follows (follows_eval mode e env) (fun view d => e.learns_evalIn view d env) hs

theorem Value.onlyLearned_evalTilde {s : State} (hs : s.Sound) (mode : Mode) (v : Value)
    (overscope top : EnvId) : s.OnlyLearned (v.evalTilde mode overscope top s).2 :=
  onlyLearned_of_follows (follows_evalTilde mode v overscope top)
    (fun view d => v.learns_evalTildeIn view d overscope top) hs

theorem Value.onlyLearned_toFormula {s : State} (hs : s.Sound) (mode : Mode) (v : Value)
    (env : EnvId) : s.OnlyLearned (v.toFormula mode env s).2 :=
  onlyLearned_of_follows (follows_baseFormula mode v env)
    (fun view d => v.learns_toFormulaIn view d env) hs

/-- From a sound state, evaluation in any mode leaves the scope graph as it found it,
whether it ends in a value or in an error: also the frames that only a rewired slot
held are alive and in their place. -/
theorem eval_onlyLearned {s : State} (hs : s.Sound) (mode : Mode) :
    (∀ (e : Expr) (env : EnvId), s.OnlyLearned (e.eval mode env s).2) ∧
    (∀ (v : Value) (overscope top : EnvId),
      s.OnlyLearned (v.evalTilde mode overscope top s).2) ∧
    ∀ (v : Value) (env : EnvId), s.OnlyLearned (v.toFormula mode env s).2 := by
  refine ⟨fun e env => ?_, fun v overscope top => ?_, fun v env => ?_⟩
  · exact e.onlyLearned_eval hs mode env
  · exact v.onlyLearned_evalTilde hs mode overscope top
  · exact v.onlyLearned_toFormula hs mode env

/-- The depth runs out inside of the inner quosure, when both scopes are spliced in
and nothing but the guards holds the frame ⟨2⟩. -/
theorem eval_onlyLearned_sample :
    State.sample.Sound ∧
      State.sample.OnlyLearned
        (Formula.sample.toValue.evalTilde (.restricted 2) ⟨4⟩ ⟨3⟩ State.sample).2 ∧
      (Formula.sample.toValue.evalTilde (.restricted 2) ⟨4⟩ ⟨3⟩ State.sample).1.toOption.isNone :=
  ⟨State.sound_sample, (eval_onlyLearned State.sound_sample _).2.1 _ _ _, by decide +kernel⟩

end Overscope
