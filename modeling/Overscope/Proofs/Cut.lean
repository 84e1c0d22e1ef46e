-- Evaluation with a limit against evaluation without one. The two go together, step by
-- step, up to the first call that is nested deeper than the limit; there the one with the
-- limit fails, and nothing catches the failure.
import Overscope.Proofs.FreshMask
import Overscope.Proofs.Steps

namespace Overscope

variable {α β : Type}

/-! ## How deep a visit is -/

/-- Whether evaluating the expression is evaluating a call. -/
def Expr.nests : Expr → Bool
  | .call _ _ | .const (.formula _ _ _ _) => true
  | .symbol _ | .const _ | .missing => false

/-- How many calls are being evaluated in a visit of a call, itself included. -/
def Visit.level (v : Visit) : Nat := if v.expr.nests then v.state.depth + 1 else 0

/-- How deep the calls among the visits are nested. -/
def peak (visits : List Visit) : Nat := visits.foldr (fun v n => max v.level n) 0

theorem peak_le_iff {visits : List Visit} {n : Nat} :
    peak visits ≤ n ↔ ∀ v ∈ visits, v.level ≤ n := by
  induction visits with
  | nil => simp [peak]
  | cons v visits ih =>
    rw [peak, List.foldr_cons, ← peak, Nat.max_le, ih, List.forall_mem_cons]

theorem lt_peak_iff {visits : List Visit} {n : Nat} :
    n < peak visits ↔ ∃ v ∈ visits, n < v.level := by
  rw [← Nat.not_le, peak_le_iff]
  push Not
  rfl

/-! ## Steps that a limit cuts -/

/-- Not the failure of a limit. -/
def EvalError.NotLimit (e : EvalError) : Prop := ∀ limit, e ≠ .recursionLimit limit

/-- The limit cuts the step: if no visit of `x` is deeper than it, then `y` does what `x`
does, which does not fail because of any limit; and otherwise `y` fails because of the
limit. -/
def Cut (limit : Nat) (x : Traced α) (y : EvalM α) : Prop :=
  ∀ s, ((∀ v ∈ x.visits s, v.level ≤ limit) ∧ y s = x.run s ∧
      ∀ err, (x.run s).1 = .error err → err.NotLimit) ∨
    (∃ v ∈ x.visits s, limit < v.level) ∧ (y s).1 = .error (.recursionLimit limit)

variable {limit : Nat}

theorem notLimit_of_isPlain {e : EvalError} (he : e.isPlain) : e.NotLimit := by
  rintro limit rfl
  cases he

theorem cut_silent {x : EvalM α} (hx : FailsWith EvalError.NotLimit x) :
    Cut limit (.silent x) x := by
  refine fun s => Or.inl ⟨fun v hv => ?_, rfl, hx s⟩
  cases hv

theorem cut_plain {x : EvalM α} (hx : Plain x) : Cut limit (.silent x) x :=
  cut_silent (hx.mono fun _ => notLimit_of_isPlain)

theorem cut_pure (a : α) : Cut limit (pure a) (pure a) := cut_silent (failsWith_pure a)

theorem cut_bind {x : Traced α} {y : EvalM α} {f : α → Traced β} {g : α → EvalM β}
    (hx : Cut limit x y) (hf : ∀ a, Cut limit (f a) (g a)) : Cut limit (x >>= f) (y >>= g) := by
  intro s
  rcases hx s with ⟨hlow, heq, herr⟩ | ⟨⟨v, hv, hdeep⟩, hfail⟩
  · rcases hr : x.run s with ⟨e | a, s'⟩
    · rw [Traced.run_bind, Traced.visits_bind_error hr, Attempt.bind_run_error hr,
        Attempt.bind_run_error (heq.trans hr)]
      rw [hr] at herr
      refine Or.inl ⟨hlow, rfl, fun err h => herr err ?_⟩
      cases h
      rfl
    · rw [Traced.run_bind, Traced.visits_bind_ok hr, Attempt.bind_run_ok hr,
        Attempt.bind_run_ok (heq.trans hr)]
      rcases hf a s' with ⟨hlow', hrest⟩ | ⟨⟨v, hv, hdeep⟩, hfail⟩
      · exact Or.inl ⟨fun v hv => (List.mem_append.1 hv).elim (hlow v) (hlow' v), hrest⟩
      · exact Or.inr ⟨⟨v, List.mem_append_right _ hv, hdeep⟩, hfail⟩
  · refine Or.inr ⟨⟨v, List.mem_append_left _ hv, hdeep⟩, ?_⟩
    rcases hr : y s with ⟨e | a, s'⟩
    · rw [hr] at hfail
      rw [Attempt.bind_run_error hr]
      cases hfail
      rfl
    · rw [hr] at hfail
      cases hfail

/-- A step in a prepared state. -/
theorem cut_inside {prepare : (γ : Type) → EvalM γ → EvalM γ} {x : Traced α} {y : EvalM α}
    (hprepare : ∀ s, ∃ t, Prepares prepare s t ∧ ∀ err, t = .error err → err.NotLimit)
    (hx : Cut limit x y) : Cut limit (.inside prepare x) (prepare α y) := by
  intro s
  obtain ⟨t, ht, herr⟩ := hprepare s
  rw [Traced.run_inside]
  cases t with
  | error err =>
    rw [visits_inside_error ht]
    obtain ⟨s', hrun⟩ := ht
    refine Or.inl ⟨nofun, ?_, fun err' h => herr err' ?_⟩
    · rw [hrun, hrun]
    · rw [hrun] at h
      cases h
      rfl
  | ok t =>
    rw [visits_inside_ok ht]
    obtain ⟨back, hrun⟩ := ht
    rw [hrun, hrun]
    rcases hx t with ⟨hlow, heq, herr⟩ | hdeep
    · exact Or.inl ⟨hlow, by rw [heq], herr⟩
    · exact Or.inr hdeep

/-- A call is as deep as the limit allows, or it fails before it starts. -/
theorem cut_call {e : Expr} (he : e.nests) (env : EnvId) {x : Traced α} {y : EvalM α}
    (hx : Cut limit x y) :
    Cut limit (.evaluates e env (.inside (fun _ => nested .unlimited) x))
      (nested (.restricted limit) y) := by
  intro s
  have hlevel : (Visit.mk e env s).level = s.depth + 1 := by rw [Visit.level, if_pos he]
  have hvisits : (Traced.evaluates e env (.inside (fun _ => nested .unlimited) x)).visits s =
      ⟨e, env, s⟩ :: x.visits { s with depth := s.depth + 1 } :=
    congrArg (List.cons _) (visits_inside_ok (prepares_nested_unlimited s) x)
  rw [hvisits, Traced.run_evaluates, Traced.run_inside]
  by_cases hlim : limit < s.depth + 1
  · refine Or.inr ⟨⟨_, List.mem_cons_self .., by rw [hlevel]; exact hlim⟩, ?_⟩
    simp only [nested, Mode.limit?, if_pos hlim]
  · have hrestricted : nested (.restricted limit) y s = nested.deeper y s := by
      simp only [nested, Mode.limit?, if_neg hlim]
    rw [hrestricted]
    rcases hx { s with depth := s.depth + 1 } with ⟨hlow, heq, herr⟩ | ⟨⟨v, hv, hdeep⟩, hfail⟩
    · refine Or.inl ⟨?_, ?_, herr⟩
      · rw [List.forall_mem_cons, hlevel]
        exact ⟨Nat.le_of_not_lt hlim, hlow⟩
      · show nested.deeper y s = nested.deeper x.run s
        simp only [nested.deeper, heq]
    · exact Or.inr ⟨⟨v, List.mem_cons_of_mem _ hv, hdeep⟩, hfail⟩

/-- A visit of what is no call. -/
theorem cut_leaf {e : Expr} (he : e.nests = false) (env : EnvId) {x : EvalM α}
    (hx : FailsWith EvalError.NotLimit x) : Cut limit (.evaluates e env (.silent x)) x := by
  refine fun s => Or.inl ⟨fun v hv => ?_, rfl, hx s⟩
  rw [List.mem_singleton.1 hv, Visit.level, he]
  exact Nat.zero_le _

/-! ## Calls -/

structure OperandCut (limit : Nat) (top : TracedOperand) (op : Operand) : Prop where
  code : top.code = op.code
  run : ∀ env, Cut limit (top.run env) (op.run env)

structure SiteCut (limit : Nat) (tsite : TracedSite) (site : CallSite) : Prop where
  head : tsite.head = site.head
  object : tsite.object = site.object
  operands : List.Forall₂ (OperandCut limit) tsite.operands site.operands

theorem cut_traceOperands {tops : List TracedOperand} {ops : List Operand}
    (h : List.Forall₂ (OperandCut limit) tops ops) (env : EnvId) :
    Cut limit (traceOperands tops env) (evalOperands ops env) := by
  induction h with
  | nil => exact cut_pure []
  | cons hop _ ih =>
    refine cut_bind (hop.run env) fun v => ?_
    exact cut_bind ih fun vs => cut_pure (v :: vs)

theorem SiteCut.codes {tsite : TracedSite} {site : CallSite} (h : SiteCut limit tsite site) :
    tsite.bare.operands.map Operand.code = site.operands.map Operand.code := by
  obtain ⟨thead, tops, tobject⟩ := tsite
  obtain ⟨head, ops, object⟩ := site
  obtain ⟨-, -, hops⟩ := h
  rw [TracedSite.bare, List.map_map]
  simp only at hops ⊢
  induction hops with
  | nil => rfl
  | cons hop _ ih =>
    rw [List.map_cons, List.map_cons, ih, ← hop.code]
    rfl

theorem apply_quote (site : CallSite) (env : EnvId) :
    site.apply env .quote = match site.operands.map Operand.code with
      | [e] => pure e.quoted
      | es => .fail (.wrongArgCount "quote" "1 argument" es.length) := by
  obtain ⟨head, ops, object⟩ := site
  rcases ops with _ | ⟨op, _ | ⟨op', ops⟩⟩
  · rfl
  · rfl
  · simp only [CallSite.apply, List.map_cons, List.length_cons, List.length_map]

theorem apply_member_of_ne {site : CallSite} (hm : site.operands.length ≠ 2) (env : EnvId) :
    site.apply env .member = .fail (.wrongArgCount "$" "2 arguments" site.operands.length) := by
  obtain ⟨head, ops, object⟩ := site
  rcases ops with _ | ⟨op, _ | ⟨op', _ | ⟨op'', ops⟩⟩⟩
  · rfl
  · rfl
  · exact absurd rfl hm
  · rfl

/-- An operator that evaluates none of its operands reads their code alone. -/
theorem apply_eq_of_codes {site site' : CallSite} (hhead : site.head = site'.head)
    (hobject : site.object = site'.object)
    (hcodes : site.operands.map Operand.code = site'.operands.map Operand.code) {p : Primitive}
    (hp : p.isSpecial) (hm : p = .member → site.operands.length ≠ 2) (env : EnvId) :
    site.apply env p = site'.apply env p := by
  cases p with
  | tilde => simp only [CallSite.apply, CallSite.args, hcodes, hhead, hobject]
  | quote => rw [apply_quote, apply_quote, hcodes]
  | member =>
    have hlen : site.operands.length = site'.operands.length := by
      simpa using congrArg List.length hcodes
    have hne := hm rfl
    rw [apply_member_of_ne hne, hlen, apply_member_of_ne (hlen ▸ hne)]
  | arithmetic op => cases hp

/-- Applying an operator, whose operands are cut. -/
theorem cut_apply {tsite : TracedSite} {site : CallSite} (h : SiteCut limit tsite site)
    (env : EnvId) (p : Primitive) : Cut limit (tsite.apply env p) (site.apply env p) := by
  have hsilent (hp : p.isSpecial) (hm : p = .member → site.operands.length ≠ 2) :
      Cut limit (.silent (tsite.bare.apply env p)) (site.apply env p) := by
    have hsame := apply_eq_of_codes h.head.symm h.object.symm h.codes.symm hp hm env
    rw [hsame.symm]
    exact cut_plain (plain_apply hp hm)
  obtain ⟨thead, tops, tobject⟩ := tsite
  obtain ⟨head, ops, object⟩ := site
  obtain ⟨rfl, rfl, hops⟩ := h
  simp only at hops
  cases p with
  | tilde => exact hsilent rfl nofun
  | quote => exact hsilent rfl nofun
  | member =>
    rcases hops with _ | ⟨htarget, _ | ⟨hmember, _ | _⟩⟩
    · exact hsilent rfl (by simp)
    · exact hsilent rfl (by simp)
    · refine cut_bind (htarget.run env) fun v => ?_
      rw [hmember.code]
      exact cut_plain (failsWith_bind (plain_memberName _) fun name => plain_member v name)
    · exact hsilent rfl (by simp)
  | arithmetic op =>
    exact cut_bind (cut_traceOperands hops env) fun vs => cut_plain fun _ _ => isPlain_apply

theorem cut_toFormula {tsite : TracedSite} {site : CallSite} (h : SiteCut limit tsite site)
    (env : EnvId) :
    Cut limit (tsite.toFormula .unlimited env) (site.toFormula (.restricted limit) env) := by
  obtain ⟨thead, tops, tobject⟩ := tsite
  obtain ⟨head, ops, object⟩ := site
  obtain ⟨rfl, rfl, hops⟩ := h
  have hbare : ∀ p, SiteCut limit ⟨.inlined p, tops, none⟩ ⟨.inlined p, ops, none⟩ :=
    fun p => ⟨rfl, rfl, hops⟩
  have hbuilt : Cut limit (TracedSite.toFormula .unlimited ⟨thead, tops, none⟩ env)
      (CallSite.toFormula (.restricted limit) ⟨thead, ops, none⟩ env) := by
    refine cut_bind (cut_plain plain_baseTilde) fun p => ?_
    refine cut_bind (cut_call rfl env (cut_apply (hbare p) env p)) fun v => ?_
    cases v <;> exact cut_pure _
  rcases tobject with _ | ⟨head', args, _ | e, kind⟩
  · exact hbuilt
  · exact hbuilt
  · exact cut_pure _

theorem notLimit_requireOnChain (overscope top : EnvId) :
    FailsWith EvalError.NotLimit (requireOnChain overscope top) := by
  refine failsWith_bind (failsWith_read _) fun found => ?_
  cases found with
  | true => exact failsWith_pure ()
  | false => exact failsWith_fail nofun

theorem notLimit_fail_text (n : Name) :
    FailsWith EvalError.NotLimit
      (nameText n >>= fun text => (.fail (.undefinedVariable text) : EvalM α)) :=
  failsWith_bind (failsWith_read _) fun _ => failsWith_fail nofun

theorem notLimit_localEnv (e : EnvId) (name : Name) :
    FailsWith EvalError.NotLimit (localEnv e name) := by
  refine failsWith_bind (failsWith_read _) fun found => ?_
  cases found with
  | none => exact notLimit_fail_text name
  | some v =>
    cases v with
    | env f => exact failsWith_pure f
    | _ => exact failsWith_fail nofun

theorem notLimit_targetScope (own : Option EnvId) (overscope : EnvId) :
    FailsWith EvalError.NotLimit (targetScope own overscope) := by
  cases own with
  | some e => exact failsWith_pure e
  | none => exact notLimit_localEnv overscope .env

theorem notLimit_frames (t : Override) : FailsWith EvalError.NotLimit t.frames := by
  refine failsWith_bind (failsWith_read _) fun alive => ?_
  cases alive with
  | true => exact failsWith_pure _
  | false => exact failsWith_fail nofun

/-- Splicing a scope into an overscope fails because of a cycle alone. -/
theorem cut_withScope {x : Traced α} {y : EvalM α} (hx : Cut limit x y)
    (overscope top target : EnvId) :
    Cut limit (.inside (fun _ => withScope overscope top target) x)
      (withScope overscope top target y) := by
  refine cut_inside (fun s => ⟨_, prepares_withScope s overscope top target, fun err herr => ?_⟩) hx
  split at herr
  · cases herr
    nofun
  · cases herr

theorem cut_evalQuosure {tsite : TracedSite} {site : CallSite} (h : SiteCut limit tsite site)
    (own : Option EnvId) (overscope top : EnvId) :
    Cut limit (tsite.evalQuosure own overscope top) (site.evalQuosure own overscope top) := by
  unfold TracedSite.evalQuosure CallSite.evalQuosure
  have hlast := rel_getLast? h.operands
  generalize tsite.operands.getLast? = tlast at hlast ⊢
  generalize site.operands.getLast? = last at hlast ⊢
  rcases hlast with ⟨hrhs⟩ | _
  · rename_i trhs rhs
    simp only [hrhs.code]
    split
    · exact cut_pure _
    split
    · exact hrhs.run overscope
    · refine cut_bind (cut_silent (notLimit_requireOnChain overscope top)) fun _ => ?_
      refine cut_bind (cut_silent (notLimit_targetScope own overscope)) fun target => ?_
      exact cut_withScope (hrhs.run overscope) overscope top target
  · exact cut_pure _

theorem cut_overridden {tsite : TracedSite} {site : CallSite} (h : SiteCut limit tsite site)
    (overscope top : EnvId) :
    Cut limit (tsite.overridden .unlimited overscope top)
      (site.overridden (.restricted limit) overscope top) := by
  have hformula := cut_toFormula h overscope
  have hquosure := fun own => cut_evalQuosure h own overscope top
  obtain ⟨thead, tops, tobject⟩ := tsite
  obtain ⟨head, ops, object⟩ := site
  obtain ⟨rfl, rfl, -⟩ := h
  rcases tobject with _ | ⟨_, _, own, _ | _⟩
  · exact hformula
  · exact hformula
  · exact hquosure own

/-- Evaluating a call. -/
theorem cut_eval {e : Expr} (he : e.nests) {tsite : TracedSite} {site : CallSite}
    (h : SiteCut limit tsite site) (env : EnvId) :
    Cut limit (.evaluates e env (tsite.eval .unlimited env))
      (site.eval (.restricted limit) env) := by
  refine cut_call he env ?_
  rw [h.head]
  refine cut_bind (cut_plain (plain_resolve site.head env)) fun c => ?_
  cases c with
  | builtin p => exact cut_apply h env p
  | override t =>
    exact cut_bind (cut_silent (notLimit_frames t)) fun frames =>
      cut_overridden h frames.1 frames.2

/-! ## Code and values -/

-- The induction is on code and values. What a limit does at a call depends on the depth that
-- the state has there, and on nothing else of the evaluation around it.
mutual

/-- A limit cuts evaluation. -/
theorem Expr.cut_trace (limit : Nat) (e : Expr) (env : EnvId) :
    Cut limit (e.trace .unlimited env) (e.eval (.restricted limit) env) := by
  cases e with
  | const v => exact v.cut_traceInlined limit env
  | symbol name =>
    refine cut_leaf rfl env (failsWith_bind (failsWith_read _) fun found => ?_)
    cases found with
    | none => exact notLimit_fail_text name
    | some v => exact failsWith_pure v
  | call head args => exact cut_eval rfl ⟨rfl, rfl, args.cut_traced limit⟩ env
  | missing => exact cut_leaf rfl env (failsWith_pure _)

theorem Value.cut_traceInlined (limit : Nat) (v : Value) (env : EnvId) :
    Cut limit (v.traceInlined .unlimited env) (v.evalInlined (.restricted limit) env) := by
  cases v with
  | formula head args own kind => exact cut_eval rfl ⟨rfl, rfl, args.cut_traced limit⟩ env
  | _ => exact cut_leaf rfl env (failsWith_pure _)

theorem Args.cut_traced (limit : Nat) (args : Args) :
    List.Forall₂ (OperandCut limit) (args.traced .unlimited)
      (args.operands (.restricted limit)) := by
  cases args with
  | nil => exact .nil
  | cons e rest => exact .cons ⟨rfl, e.cut_trace limit⟩ (rest.cut_traced limit)

end

theorem Value.cut_tracedSite? (limit : Nat) (v : Value) :
    Option.Rel (SiteCut limit) (v.tracedSite? .unlimited) (v.callSite? (.restricted limit)) := by
  cases v with
  | formula head args own kind => exact .some ⟨rfl, rfl, args.cut_traced limit⟩
  | code e =>
    cases e with
    | call head args => exact .some ⟨rfl, rfl, args.cut_traced limit⟩
    | _ => exact .none
  | _ => exact .none

theorem Value.cut_traceTilde (limit : Nat) (v : Value) (overscope top : EnvId) :
    Cut limit (v.traceTilde .unlimited overscope top)
      (v.evalTilde (.restricted limit) overscope top) := by
  unfold Value.traceTilde Value.evalTilde
  have hsites := v.cut_tracedSite? limit
  generalize v.tracedSite? .unlimited = tsite at hsites ⊢
  generalize v.callSite? (.restricted limit) = site at hsites ⊢
  rcases hsites with ⟨hsite⟩ | _
  · exact cut_overridden hsite overscope top
  · exact cut_plain (failsWith_fail rfl)

theorem Value.cut_traceFormula (limit : Nat) (v : Value) (env : EnvId) :
    Cut limit (v.traceFormula .unlimited env) (v.toFormula (.restricted limit) env) := by
  unfold Value.traceFormula Value.toFormula
  have hsites := v.cut_tracedSite? limit
  generalize v.tracedSite? .unlimited = tsite at hsites ⊢
  generalize v.callSite? (.restricted limit) = site at hsites ⊢
  rcases hsites with ⟨hsite⟩ | _
  · exact cut_toFormula hsite env
  · exact cut_plain (failsWith_fail rfl)

/-! ## Data -/

theorem notLimit_pointMask (mask env : EnvId) :
    FailsWith EvalError.NotLimit (pointMask mask env) := by
  refine failsWith_bind (notLimit_localEnv mask .topEnv) fun top => ?_
  have hreparent : FailsWith EvalError.NotLimit
      (.read (·.heap.reparent top (some env)) >>= .ofExcept : EvalM Heap) := by
    intro s err h
    obtain ⟨rfl, -⟩ := Heap.reparent_eq_error_iff.1 h
    nofun
  rw [← bind_assoc]
  exact failsWith_bind hreparent fun heap => fun _ _ h => by cases h

/-- A mask that is built is no call, and neither is one that is refused. -/
theorem cut_inOwnMask {build : Heap → Except EvalError (EnvId × Heap)}
    {takeDown : Heap → EnvId → Heap} {body : EnvId → Traced Value} {other : EnvId → EvalM Value}
    (hbuild : ∀ h err, build h = .error err → err.NotLimit)
    (hbody : ∀ mask, Cut limit (body mask) (other mask)) :
    Cut limit (traceInOwnMask build takeDown body) (inOwnMask build takeDown other) := by
  intro s
  simp only [traceInOwnMask, inOwnMask]
  rcases hb : build s.heap with err | ⟨mask, heap⟩
  · refine Or.inl ⟨nofun, rfl, fun err' h => ?_⟩
    cases h
    exact hbuild s.heap err hb
  · simp only
    rcases hbody mask { s with heap, held := mask :: s.held } with ⟨hlow, heq, herr⟩ | hdeep
    · exact Or.inl ⟨hlow, by rw [heq], herr⟩
    · exact Or.inr hdeep

theorem cut_traceWithData (limit : Nat) (code data : Value) (env : EnvId) :
    Cut limit (traceWithData .unlimited code data env)
      (evalWithData (.restricted limit) code data env) := by
  unfold traceWithData evalWithData
  refine cut_bind (cut_silent (failsWith_read _)) fun found => ?_
  cases found with
  | some mask =>
    exact cut_bind (cut_silent (notLimit_pointMask mask _)) fun _ => code.body.cut_trace limit mask
  | none =>
    have hdata : ∀ d, Cut limit
        (traceInOwnMask (·.maskOf d (code.scopeOr env)) Heap.stripMask (code.body.trace .unlimited))
        (inOwnMask (·.maskOf d (code.scopeOr env)) Heap.stripMask
          (code.body.eval (.restricted limit))) := by
      refine fun d => cut_inOwnMask (fun h err he => ?_) (code.body.cut_trace limit)
      obtain ⟨defect, rfl⟩ := Heap.maskOf_eq_error he
      nofun
    cases data with
    | null => exact cut_inOwnMask nofun (code.body.cut_trace limit)
    | _ => exact hdata _

end Overscope
