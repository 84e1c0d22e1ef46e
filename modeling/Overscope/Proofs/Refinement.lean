-- The evaluator that rewires the scope graph and puts it back gives what the one
-- gives that only looks at it. There is a lemma for each operation of a call, and
-- then one mutual induction over code and values.
import Overscope.Code.Equality
import Overscope.Mask.Basic
import Overscope.Proofs.Follows

namespace Overscope

variable {mode : Mode}

/-- The last ones of related lists are related, or there are none. -/
theorem rel_getLast? {α β : Type} {R : α → β → Prop} {as : List α} {bs : List β}
    (h : List.Forall₂ R as bs) : Option.Rel R as.getLast? bs.getLast? := by
  induction h with
  | nil => exact .none
  | cons hab hrest ih =>
    cases hrest with
    | nil => exact .some hab
    | cons _ _ =>
      rw [List.getLast?_cons_cons, List.getLast?_cons_cons]
      exact ih

/-! ## Operands and calls that follow each other -/

structure OperandFollows (mode : Mode) (op : Operand) (vop : ViewOperand) : Prop where
  code : op.code = vop.code
  run : ∀ env, Follows mode (op.run env) fun v d => vop.run v d env

structure SiteFollows (mode : Mode) (site : CallSite) (vsite : ViewSite) : Prop where
  head : site.head = vsite.head
  object : site.object = vsite.object
  operands : List.Forall₂ (OperandFollows mode) site.operands vsite.operands

namespace OperandFollows

theorem map_code {ops : List Operand} {vops : List ViewOperand}
    (h : List.Forall₂ (OperandFollows mode) ops vops) :
    ops.map Operand.code = vops.map ViewOperand.code := by
  induction h with
  | nil => rfl
  | cons hop _ ih => rw [List.map_cons, List.map_cons, hop.code, ih]

end OperandFollows

/-! ## Operators -/

theorem follows_memberName (e : Expr) : Follows mode e.memberName fun _ _ => e.memberNameIn := by
  cases e with
  | const v => cases v <;> exact fun _ _ => rfl
  | _ => exact fun _ _ => rfl

theorem getIn?_view (h : Heap) (source : DataSource) (name : Name) :
    source.getIn? h.view name = source.get? h name := by
  cases source <;> rfl

theorem follows_member (target : Value) (name : Name) :
    Follows mode (target.member name) fun v _ => target.memberIn v name := by
  cases target with
  | pronoun source absence =>
    intro s _
    simp only [Value.member, Value.memberIn, Attempt.bind_run, Attempt.read, getIn?_view]
    rcases source.get? s.heap name with _ | w <;> rfl
  | _ => exact fun _ _ => rfl

theorem follows_evalOperands {ops : List Operand} {vops : List ViewOperand}
    (h : List.Forall₂ (OperandFollows mode) ops vops) (env : EnvId) :
    Follows mode (evalOperands ops env) fun v d => evalOperandsIn v d env vops := by
  induction h with
  | nil => exact follows_pure []
  | cons hop _ ih =>
    refine follows_bind (hop.run env) fun w => ?_
    exact follows_bind ih fun ws => follows_pure (w :: ws)

theorem follows_wrongArgCount {ops : List Operand} {vops : List ViewOperand}
    (h : List.Forall₂ (OperandFollows mode) ops vops) (operator expected : String) :
    Follows mode (.fail (.wrongArgCount operator expected ops.length) : EvalM Value)
      fun _ _ => .fail (.wrongArgCount operator expected vops.length) := by
  rw [h.length_eq]
  exact follows_fail _

/-- Applying an operator to calls that follow each other. -/
theorem follows_apply {site : CallSite} {vsite : ViewSite} (h : SiteFollows mode site vsite)
    (env : EnvId) (p : Primitive) :
    Follows mode (site.apply env p) fun v d => vsite.applyIn v d env p := by
  obtain ⟨head, ops, object⟩ := site
  obtain ⟨vhead, vops, vobject⟩ := vsite
  obtain ⟨rfl, rfl, hops⟩ := h
  cases p with
  | tilde =>
    simp only [CallSite.apply, ViewSite.applyIn, CallSite.args, OperandFollows.map_code hops]
    exact follows_pure _
  | quote =>
    rcases hops with _ | ⟨hop, _ | ⟨hop', hrest⟩⟩
    · exact follows_fail _
    · simp only [CallSite.apply, ViewSite.applyIn, hop.code]
      exact follows_pure _
    · exact follows_wrongArgCount (.cons hop (.cons hop' hrest)) _ _
  | member =>
    rcases hops with _ | ⟨htarget, _ | ⟨hmember, _ | ⟨hop, hrest⟩⟩⟩
    · exact follows_fail _
    · exact follows_fail _
    · simp only [CallSite.apply, ViewSite.applyIn, hmember.code]
      refine follows_bind (htarget.run env) fun w => ?_
      exact follows_bind (follows_memberName _) fun name => follows_member w name
    · exact follows_wrongArgCount (.cons htarget (.cons hmember (.cons hop hrest))) _ _
  | arithmetic op =>
    exact follows_bind (follows_evalOperands hops env) fun vs => follows_ofExcept _

/-! ## Formulas and quosures -/

theorem follows_baseTilde : Follows mode baseTilde fun v _ => baseTildeIn v := by
  intro s _
  obtain ⟨interner, heap, depth, tilde, held⟩ := s
  simp only [baseTilde, baseTildeIn, State.onMemo, State.memo, Attempt.bind_run, Attempt.read,
    Heap.view]
  cases tilde with
  | some p => rfl
  | none =>
    simp only [Attempt.bind_run, Attempt.read]
    rcases heap.local? .base .tilde with _ | w
    · rfl
    · cases w <;> rfl

/-- Building the formula of calls that follow each other. -/
theorem follows_toFormula {site : CallSite} {vsite : ViewSite} (h : SiteFollows mode site vsite)
    (env : EnvId) : Follows mode (site.toFormula mode env) fun v d => vsite.toFormulaIn v d env := by
  obtain ⟨head, ops, object⟩ := site
  obtain ⟨vhead, vops, vobject⟩ := vsite
  obtain ⟨rfl, rfl, hops⟩ := h
  have hbuilt : Follows mode (CallSite.toFormula mode ⟨head, ops, none⟩ env) fun v d =>
      ViewSite.toFormulaIn ⟨head, vops, none⟩ v d env := by
    refine follows_bind follows_baseTilde fun p => ?_
    have hsite : SiteFollows mode ⟨.inlined p, ops, none⟩ ⟨.inlined p, vops, none⟩ :=
      ⟨rfl, rfl, hops⟩
    refine follows_bind (follows_nested (follows_apply hsite env p)) fun w => ?_
    cases w <;> exact follows_pure _
  rcases object with _ | ⟨head', args, _ | e, kind⟩
  · exact hbuilt
  · exact hbuilt
  · exact follows_pure _

theorem follows_requireOnChain {α : Type} {x : EvalM α} {y : View → Option Allowance → ViewM α}
    (hx : Follows mode x y) (overscope top : EnvId) :
    Follows mode (requireOnChain overscope top >>= fun _ => x) fun v d =>
      if !v.hasAncestor overscope top then .fail .notAnAncestor else y v d := by
  intro s hs
  simp only [requireOnChain, Attempt.bind_run, Attempt.read, Heap.hasAncestor_view hs.acyclic]
  by_cases ha : s.heap.hasAncestor overscope top
  · simp only [ha]
    exact hx s hs
  · simp only [ha]
    rfl

theorem follows_targetScope (own : Option EnvId) (overscope : EnvId) :
    Follows mode (targetScope own overscope) fun v _ => targetIn v own overscope := by
  cases own with
  | some e => exact follows_pure e
  | none =>
    intro s _
    simp only [targetScope, targetIn, localEnv, Attempt.bind_run, Attempt.read, Heap.view]
    rcases s.heap.local? overscope .env with _ | w
    · rfl
    · cases w <;> rfl

theorem follows_withScope {α : Type} {x : EvalM α} {y : View → Option Allowance → ViewM α}
    (hx : Follows mode x y) (overscope top target : EnvId) :
    Follows mode (withScope overscope top target x) fun v d =>
      if v.hasAncestor target top then .fail .cyclicScope
      else y (v.splice overscope top target) d := by
  intro s hs
  simp only [withScope, Attempt.bind_run, Attempt.read, Heap.isMask_view, View.splice]
  by_cases hm : s.heap.isMask overscope
  · have hswap := follows_withBinding (follows_withParent hx top target) overscope .env
      (.env target) s hs
    simp only [View.hasAncestor_bind] at hswap
    simp only [hm, if_true]
    exact hswap
  · simp only [hm]
    exact follows_withParent hx top target s hs

/-- Evaluating a quosure in an overscope: the scope that is spliced in is seen by the
right-hand side alone. -/
theorem follows_evalQuosure {site : CallSite} {vsite : ViewSite} (h : SiteFollows mode site vsite)
    (own : Option EnvId) (overscope top : EnvId) :
    Follows mode (site.evalQuosure own overscope top) fun v d =>
      vsite.quosureIn own v d overscope top := by
  unfold CallSite.evalQuosure ViewSite.quosureIn
  have hlast := rel_getLast? h.operands
  generalize site.operands.getLast? = last at hlast ⊢
  generalize vsite.operands.getLast? = vlast at hlast ⊢
  rcases hlast with ⟨hrhs⟩ | _
  · rename_i rhs vrhs
    simp only [hrhs.code]
    by_cases hmiss : vrhs.code.isMissing
    · simp only [hmiss, if_true]
      exact follows_pure _
    by_cases hsym : vrhs.code.isSymbolic
    · simp only [hmiss, hsym, Bool.not_true, Bool.false_eq_true, if_false]
      refine follows_requireOnChain ?_ overscope top
      refine follows_bind (follows_targetScope own overscope) fun target => ?_
      exact follows_withScope (hrhs.run overscope) overscope top target
    · simp only [hmiss, hsym, Bool.not_false, Bool.false_eq_true, if_false, if_true]
      exact hrhs.run overscope
  · exact follows_pure _

theorem follows_overridden {site : CallSite} {vsite : ViewSite} (h : SiteFollows mode site vsite)
    (overscope top : EnvId) :
    Follows mode (site.overridden mode overscope top) fun v d =>
      vsite.overriddenIn v d overscope top := by
  unfold CallSite.overridden ViewSite.overriddenIn
  rw [h.object]
  rcases vsite.object with _ | ⟨_, _, own, _ | _⟩
  · exact follows_toFormula h overscope
  · exact follows_toFormula h overscope
  · exact follows_evalQuosure h own overscope top

/-! ## Calls and expressions -/

theorem follows_resolve (head : Head) (env : EnvId) :
    Follows mode (head.resolve env) fun v _ => head.resolveIn v env := by
  cases head with
  | inlined p => exact follows_pure _
  | symbol name =>
    intro s hs
    simp only [Head.resolve, Head.resolveIn, Attempt.bind_run, Attempt.read,
      Heap.resolveWhere?_view hs.acyclic]
    rcases (s.heap.resolveWhere? env name Value.isCallable).bind Value.callable? with _ | c <;> rfl

/-- The frames of an override are read before it starts. -/
theorem follows_frames {α : Type} (t : Override) {x : EnvId → EnvId → EvalM α}
    {y : EnvId → EnvId → View → Option Allowance → ViewM α}
    (hx : ∀ mask top, Follows mode (x mask top) (y mask top)) :
    Follows mode (t.frames >>= fun p => x p.1 p.2) fun v d =>
      if v.isLive t.mask && v.isLive t.top then y t.mask t.top v d else .fail .maskDropped := by
  intro s hs
  simp only [Override.frames, Attempt.bind_run, Attempt.read, Heap.view]
  by_cases hl : s.heap.isLive t.mask && s.heap.isLive t.top
  · simp only [hl, if_true]
    exact hx t.mask t.top s hs
  · simp only [hl]
    rfl

/-- Evaluating calls that follow each other, by both routes: an operator that is
applied, and an override that goes on with its own frames. -/
theorem follows_call {site : CallSite} {vsite : ViewSite} (h : SiteFollows mode site vsite)
    (env : EnvId) : Follows mode (site.eval mode env) fun v d => vsite.evalIn v d env := by
  unfold CallSite.eval ViewSite.evalIn
  rw [h.head]
  refine follows_nested ?_
  refine follows_bind (follows_resolve vsite.head env) fun c => ?_
  cases c with
  | builtin p => exact follows_apply h env p
  | override t => exact follows_frames t fun mask top => follows_overridden h mask top

-- The induction is on code and values. Neither route needs more: an operator and an
-- override run nothing but the operands that the call was written with.
mutual

theorem follows_eval (mode : Mode) (e : Expr) (env : EnvId) :
    Follows mode (e.eval mode env) fun v d => e.evalIn v d env := by
  cases e with
  | const v => exact follows_evalInlined mode v env
  | symbol name =>
    intro s hs
    simp only [Expr.eval, Expr.evalIn, Attempt.bind_run, Attempt.read,
      Heap.resolve?_view hs.acyclic]
    rcases s.heap.resolve? env name with _ | w <;> rfl
  | call head args => exact follows_call ⟨rfl, rfl, follows_operands mode args⟩ env
  | missing => exact follows_pure _

theorem follows_evalInlined (mode : Mode) (v : Value) (env : EnvId) :
    Follows mode (v.evalInlined mode env) fun view d => v.evalInlinedIn view d env := by
  cases v with
  | formula head args own kind =>
    exact follows_call ⟨rfl, rfl, follows_operands mode args⟩ env
  | _ => exact follows_pure _

theorem follows_operands (mode : Mode) (args : Args) :
    List.Forall₂ (OperandFollows mode) (args.operands mode) args.operandsIn := by
  cases args with
  | nil => exact .nil
  | cons e rest => exact .cons ⟨rfl, follows_eval mode e⟩ (follows_operands mode rest)

end

/-! ## From a value -/

/-- The calls that a value stands for follow each other. -/
theorem follows_callSite? (mode : Mode) (v : Value) :
    Option.Rel (SiteFollows mode) (v.callSite? mode) v.viewSite? := by
  cases v with
  | formula head args own kind => exact .some ⟨rfl, rfl, follows_operands mode args⟩
  | code e =>
    cases e with
    | call head args => exact .some ⟨rfl, rfl, follows_operands mode args⟩
    | _ => exact .none
  | _ => exact .none

theorem follows_evalTilde (mode : Mode) (v : Value) (overscope top : EnvId) :
    Follows mode (v.evalTilde mode overscope top) fun view d =>
      v.evalTildeIn view d overscope top := by
  unfold Value.evalTilde Value.evalTildeIn
  have hsites := follows_callSite? mode v
  generalize v.callSite? mode = site at hsites ⊢
  generalize v.viewSite? = vsite at hsites ⊢
  rcases hsites with ⟨hsite⟩ | _
  · exact follows_overridden hsite overscope top
  · exact follows_fail _

theorem follows_baseFormula (mode : Mode) (v : Value) (env : EnvId) :
    Follows mode (v.toFormula mode env) fun view d => v.toFormulaIn view d env := by
  unfold Value.toFormula Value.toFormulaIn
  have hsites := follows_callSite? mode v
  generalize v.callSite? mode = site at hsites ⊢
  generalize v.viewSite? = vsite at hsites ⊢
  rcases hsites with ⟨hsite⟩ | _
  · exact follows_toFormula hsite env
  · exact follows_fail _

/-! ## The two evaluators -/

theorem Expr.eval_eq_onMemo {s : State} (hs : s.Sound) (mode : Mode) (e : Expr) (env : EnvId) :
    e.eval mode env s = s.onMemo (e.evalIn s.heap.view (mode.allowance s.depth) env) :=
  follows_eval mode e env s hs

theorem Value.evalTilde_eq_onMemo {s : State} (hs : s.Sound) (mode : Mode) (v : Value)
    (overscope top : EnvId) :
    v.evalTilde mode overscope top s =
      s.onMemo (v.evalTildeIn s.heap.view (mode.allowance s.depth) overscope top) :=
  follows_evalTilde mode v overscope top s hs

/-- From a sound state, evaluation does what the evaluator does that is given the
scope graph as it looks and never writes it: the outcome is the same, value or
error, and of the state only the memory is another, the one that the other
evaluator ends with. -/
theorem eval_eq_evalIn {s : State} (hs : s.Sound) (mode : Mode) :
    (∀ (e : Expr) (env : EnvId),
      e.eval mode env s = s.onMemo (e.evalIn s.heap.view (mode.allowance s.depth) env)) ∧
    (∀ (v : Value) (overscope top : EnvId),
      v.evalTilde mode overscope top s =
        s.onMemo (v.evalTildeIn s.heap.view (mode.allowance s.depth) overscope top)) ∧
    ∀ (v : Value) (env : EnvId),
      v.toFormula mode env s =
        s.onMemo (v.toFormulaIn s.heap.view (mode.allowance s.depth) env) := by
  refine ⟨fun e env => ?_, fun v overscope top => ?_, fun v env => ?_⟩
  · exact e.eval_eq_onMemo hs mode env
  · exact v.evalTilde_eq_onMemo hs mode overscope top
  · exact follows_baseFormula mode v env s hs

/-! ### A quosure inside another one -/

def Heap.sample : Heap :=
  let h := Heap.initial.bind .global ⟨12⟩ (.int 2)
  let (inner, h) := h.alloc (.empty (some .base))
  let h := h.bind inner ⟨12⟩ (.int 30)
  let (bottom, h) := h.alloc (.empty (some inner))
  let h := h.bind bottom ⟨13⟩ (.int 5)
  (h.addMask bottom bottom inner).2

/-- The mask ⟨4⟩ of the data `y = 5` goes on in the frame ⟨2⟩ where `x = 30`, which
only the mask holds. In the global environment `x = 2`. -/
def State.sample : State :=
  { State.initial with heap := .sample, held := [.base, .global, ⟨4⟩] }

/-- The sum of `x` and of a quosure without a scope over `x * y`, to be evaluated in
the global environment. -/
def Formula.sample : Formula :=
  let product := Expr.call (.inlined (.arithmetic .mul))
    (.ofList [.symbol ⟨12⟩, .symbol ⟨13⟩])
  .quosure (.call (.inlined (.arithmetic .add))
    (.ofList [.symbol ⟨12⟩, .const (Formula.quosure product none).toValue])) (some .global)

theorem State.sound_sample : State.sample.Sound := ⟨by decide, by decide⟩

/-- Both quosures find the `x` of the global environment, and the data. -/
theorem eval_eq_evalIn_sample :
    State.sample.Sound ∧
      Formula.sample.toValue.evalTilde (.restricted 3) ⟨4⟩ ⟨3⟩ State.sample =
        State.sample.onMemo (Formula.sample.toValue.evalTildeIn State.sample.heap.view
          ((Mode.restricted 3).allowance State.sample.depth) ⟨4⟩ ⟨3⟩) ∧
      (Formula.sample.toValue.evalTilde (.restricted 3) ⟨4⟩ ⟨3⟩ State.sample).1.toOption.map
        (· == .int 12) = some true :=
  ⟨State.sound_sample, (eval_eq_evalIn State.sound_sample _).2.1 _ _ _, by decide +kernel⟩

end Overscope
