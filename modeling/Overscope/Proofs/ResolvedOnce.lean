-- The operator of base `~`. The first formula that needs it takes it from the frame of base, and
-- from then on it is known, also if the evaluation fails. A run of a program is told by the states
-- in which it asks for the operator. The asks are refused, up to one that is answered, and all
-- later ones are answered alike.
import Overscope.Proofs.Asking
import Overscope.Proofs.Host
import Overscope.Proofs.PlainFormula

namespace Overscope

/-! ## Lists of asks -/

/-- The ask in a state is refused: nothing is known, base binds `~` to no operator, and the state
stays as it is. -/
structure State.Refused (t : State) : Prop where
  unknown : t.tilde = none
  unbound : ∀ p, t.heap.boundTilde ≠ some (.builtin p)
  refused : ∃ err, baseTilde t = (.error err, t)

/-- The asks are refused up to the one in `first`, which is answered with what base binds `~` to at
that time. All later ones are answered with the same operator. -/
structure AnsweredFrom (before : List State) (first : State) (later : List State)
    (p : Primitive) : Prop where
  refused : ∀ t ∈ before, t.Refused
  unknown : first.tilde = none
  bound : first.heap.boundTilde = some (.builtin p)
  same : ∀ t ∈ first :: later, (baseTilde t).1 = .ok p

namespace InTurn

variable {asks : List State} {known known' : Option Primitive}

theorem of_nil (h : InTurn known [] known') : known' = known := by
  cases h
  rfl

/-- An operator that is known stays so. -/
theorem of_known {p : Primitive} (h : InTurn (some p) asks known) :
    known = some p ∧ ∀ t ∈ asks, t.tilde = some p := by
  induction asks with
  | nil =>
    cases h
    exact ⟨rfl, List.forall_mem_nil _⟩
  | cons t asks ih =>
    obtain _ | ⟨ht, hrest⟩ := h
    rw [baseTilde_of_known ht, ht] at hrest
    obtain ⟨hknown, hsame⟩ := ih hrest
    exact ⟨hknown, List.forall_mem_cons.2 ⟨ht, hsame⟩⟩

theorem answered_of_known {p : Primitive} (h : InTurn (some p) asks known) :
    ∀ t ∈ asks, baseTilde t = (.ok p, t) :=
  fun t ht => baseTilde_of_known (h.of_known.2 t ht)

/-- From where nothing is known either all asks are refused, or there is a first one that is
answered. -/
theorem of_unknown (h : InTurn none asks known) :
    (known = none ∧ ∀ t ∈ asks, t.Refused) ∨
      ∃ p before first later, known = some p ∧ asks = before ++ first :: later ∧
        AnsweredFrom before first later p := by
  induction asks with
  | nil =>
    cases h
    exact Or.inl ⟨rfl, List.forall_mem_nil _⟩
  | cons t asks ih =>
    obtain _ | ⟨ht, hrest⟩ := h
    by_cases hbound : ∃ p, t.heap.boundTilde = some (.builtin p)
    · obtain ⟨p, hp⟩ := hbound
      have hrun := baseTilde_of_bound ht hp
      rw [hrun] at hrest
      refine Or.inr ⟨p, [], t, asks, hrest.of_known.1, rfl, List.forall_mem_nil _, ht, hp, ?_⟩
      rw [List.forall_mem_cons, hrun]
      refine ⟨rfl, fun u hu => ?_⟩
      rw [hrest.answered_of_known u hu]
    · have hno := not_exists.1 hbound
      obtain ⟨err, hrun⟩ := baseTilde_of_unbound ht hno
      have hrefused : t.Refused := ⟨ht, hno, err, hrun⟩
      rw [hrun, ht] at hrest
      rcases ih hrest with ⟨hknown, hall⟩ | ⟨p, before, first, later, hknown, rfl, hfrom⟩
      · exact Or.inl ⟨hknown, List.forall_mem_cons.2 ⟨hrefused, hall⟩⟩
      · refine Or.inr ⟨p, t :: before, first, later, hknown, rfl, ?_⟩
        exact { hfrom with refused := List.forall_mem_cons.2 ⟨hrefused, hfrom.refused⟩ }

end InTurn

/-- Once the operator is known, a step runs as it does with this operator in place of every ask. -/
theorem Asking.run_of_known {α : Type} (x : Asking α) {s : State} {p : Primitive}
    (h : s.tilde = some p) : x.run (pure p) s = x.run baseTilde s := by
  apply x.complete
  intro t ht
  have hturn := x.inTurn s
  rw [h] at hturn
  exact (hturn.answered_of_known t ht).symm

/-- The value, with the symbol `~` as its head if it is a formula. -/
def Value.underTilde : Value → Value
  | .formula _ args own kind => .formula (.symbol .tilde) args own kind
  | v => v

/-- The base operator that is the answer goes into the head of the call. -/
theorem Value.CallsWith.toFormula_eq {args : Args} {v : Value} (hv : v.CallsWith args) (mode : Mode)
    (env : EnvId) :
    v.toFormula mode env = baseTilde >>= fun p =>
      (Expr.call (.inlined p) args).eval mode env >>= fun w => pure w.underTilde := by
  have hbuilt : ∀ head, CallSite.toFormula mode ⟨head, args.operands mode, none⟩ env =
      baseTilde >>= fun p =>
        (Expr.call (.inlined p) args).eval mode env >>= fun w => pure w.underTilde := by
    intro head
    show (baseTilde >>= _) = (baseTilde >>= _)
    congr 1
    funext p
    show (_ >>= _) = (_ >>= _)
    congr 1
    funext w
    cases w <;> rfl
  cases hv with
  | code head => exact hbuilt head
  | formula head kind => exact hbuilt head

/-- What calls for a formula by the base operator is what asks for it. -/
theorem Value.asks_askingFormula_iff (mode : Mode) (v : Value) (env : EnvId) (s : State) :
    (v.askingFormula mode env).asks s = [] ↔ ∀ args, ¬ v.CallsWith args := by
  constructor
  · intro hnone args hcalls
    cases hcalls with
    | code head => exact List.cons_ne_nil s _ hnone
    | formula head kind => exact List.cons_ne_nil s _ hnone
  · intro hno
    cases v with
    | formula head args own kind =>
      cases own with
      | none => exact absurd (.formula head kind) (hno args)
      | some e => rfl
    | code e =>
      cases e with
      | call head args => exact absurd (.code head) (hno args)
      | _ => rfl
    | _ => rfl

/-! ## Runs of a program -/

/-- The evaluation that is done, with the way to the operator of base `~` left open. -/
def Act.asking (mode : Mode) : Act → Option (Asking Value)
  | .eval e env => some (e.asking mode env)
  | .evalTilde v overscope top => some (v.askingTilde mode overscope top)
  | .toFormula v env => some (v.askingFormula mode env)
  | .evalWithData code data env => some (askingWithData mode code data env)
  | _ => none

namespace Host

/-- The state in which an evaluation starts, while its operands are held. -/
def started (s : Host) (act : Act) : State := { s.state with held := act.handles ++ s.holds }

/-- The states in which base `~` is asked for when something is done. -/
def asksOf (mode : Mode) (s : Host) (act : Act) : List State :=
  match act.asking mode with
  | some x => x.asks (s.started act)
  | none => []

theorem asksOf_eq {mode : Mode} {s : Host} {act : Act} {x : Asking Value}
    (hx : act.asking mode = some x) : s.asksOf mode act = x.asks (s.started act) := by
  rw [asksOf, hx]

/-- The states in which base `~` is asked for in a run. -/
def asks (mode : Mode) (s : Host) : List Act → List State
  | [] => []
  | act :: acts => s.asksOf mode act ++ asks mode (s.after mode act) acts

/-- What a run ends with. -/
def afterAll (mode : Mode) (s : Host) (acts : List Act) : Host := acts.foldl (after mode) s

variable {mode : Mode} {s : Host} {act : Act}

/-- What is recorded is what the program does. -/
theorem after_eq_evaluate {x : Asking Value} (hx : act.asking mode = some x) :
    s.after mode act = s.evaluate act.handles (x.run baseTilde) := by
  cases act with
  | eval e env =>
    cases hx
    rw [e.run_asking]
    rfl
  | evalTilde v overscope top =>
    cases hx
    rw [v.run_askingTilde]
    rfl
  | toFormula v env =>
    cases hx
    rw [v.run_askingFormula]
    rfl
  | evalWithData code data env =>
    cases hx
    rw [run_askingWithData]
    rfl
  | _ => cases hx

theorem tilde_after_of_none (hx : act.asking mode = none) :
    (s.after mode act).state.tilde = s.state.tilde := by
  cases act with
  | eval _ _ | evalTilde _ _ _ | toFormula _ _ | evalWithData _ _ _ => cases hx
  | setParent e parent =>
    simp only [after]
    split <;> rfl
  | swapParent e parent =>
    simp only [after]
    split <;> rfl
  | release index =>
    simp only [after]
    split <;> rfl
  | _ => rfl

/-- What one thing that is done makes known is what its asks do. -/
theorem inTurn_after (mode : Mode) (s : Host) (act : Act) :
    InTurn s.state.tilde (s.asksOf mode act) (s.after mode act).state.tilde := by
  rcases hx : act.asking mode with _ | x
  · rw [asksOf, hx, tilde_after_of_none hx]
    exact .nil
  · rw [asksOf_eq hx, after_eq_evaluate hx]
    exact x.inTurn (s.started act)

theorem inTurn_afterAll (mode : Mode) (s : Host) (acts : List Act) :
    InTurn s.state.tilde (s.asks mode acts) (s.afterAll mode acts).state.tilde := by
  induction acts generalizing s with
  | nil => exact .nil
  | cons act acts ih => exact (inTurn_after mode s act).append (ih (s.after mode act))

/-- What is known at some time of a run is known at its end. -/
theorem tilde_afterAll_of_met {acts : List Act} {t : Host} {p : Primitive}
    (ht : t ∈ s.met mode acts) (hp : t.state.tilde = some p) :
    (s.afterAll mode acts).state.tilde = some p := by
  induction acts generalizing s with
  | nil =>
    obtain rfl := List.mem_singleton.1 ht
    exact hp
  | cons act acts ih =>
    rcases List.mem_cons.1 ht with rfl | hlater
    · have hturn := inTurn_afterAll mode t (act :: acts)
      rw [hp] at hturn
      exact hturn.of_known.1
    · exact ih hlater

theorem evaluate_congr {x y : EvalM Value} (h : x (s.started act) = y (s.started act)) :
    s.evaluate act.handles x = s.evaluate act.handles y := by
  unfold started at h
  unfold evaluate
  rw [h]

/-- How the operator of base `~` comes to be known in a run, and what becomes of it. -/
structure ResolvesOnce (mode : Mode) (acts : List Act) : Prop where
  /-- As long as it is not known, it is because each ask was refused, and none left a trace. -/
  refused : (initial.afterAll mode acts).state.tilde = none →
    ∀ t ∈ initial.asks mode acts, t.Refused
  /-- It is what base had at the first ask that was not refused, and is the answer ever since. -/
  answered : ∀ p, (initial.afterAll mode acts).state.tilde = some p →
    ∃ before first later, initial.asks mode acts = before ++ first :: later ∧
      AnsweredFrom before first later p
  /-- Nothing that is done makes it unknown, or another one. -/
  kept : ∀ s ∈ initial.met mode acts, ∀ p, s.state.tilde = some p →
    (initial.afterAll mode acts).state.tilde = some p
  /-- An evaluation is the one in which base `~` is asked for with `baseTilde`. -/
  run : ∀ (s : Host) (act : Act) (x : Asking Value), act.asking mode = some x →
    s.after mode act = s.evaluate act.handles (x.run baseTilde)
  /-- The asks are all that an evaluation wants of base `~`. -/
  complete : ∀ (s : Host) (act : Act) (x : Asking Value), act.asking mode = some x →
    ∀ ask : EvalM Primitive, (∀ t ∈ s.asksOf mode act, ask t = baseTilde t) →
      x.run ask (s.started act) = x.run baseTilde (s.started act)
  /-- It wants all of them: if just one failed, it would fail. -/
  reached : ∀ (s : Host) (act : Act) (x : Asking Value), act.asking mode = some x →
    ∀ t ∈ s.asksOf mode act, ∀ (ask : EvalM Primitive) (err : EvalError),
      (ask t).1 = .error err → (∀ u, u ≠ t → ask u = baseTilde u) →
        (x.run ask (s.started act)).1 = .error err
  /-- Once it is known, an evaluation is the one with this operator written into it. -/
  constant : ∀ (s : Host) (act : Act) (x : Asking Value) (p : Primitive),
    act.asking mode = some x → s.state.tilde = some p →
      s.after mode act = s.evaluate act.handles (x.run (pure p))
  /-- What does not ask for it does not make it known. -/
  unasked : ∀ (s : Host) (act : Act), s.asksOf mode act = [] →
    (s.after mode act).state.tilde = s.state.tilde
  /-- A call that is to be a formula is evaluated with the answer in its head. -/
  formula : ∀ (v : Value) (args : Args), v.CallsWith args → ∀ env,
    v.toFormula mode env = baseTilde >>= fun p =>
      (Expr.call (.inlined p) args).eval mode env >>= fun w => pure w.underTilde
  asks_iff : ∀ (s : Host) (v : Value) (env : EnvId),
    s.asksOf mode (.toFormula v env) = [] ↔ ∀ args, ¬ v.CallsWith args

/-- The operator of base `~` is taken from base once. Until then it is asked for in vain, and after
that no change to base matters. -/
theorem resolvesOnce_throughout (mode : Mode) (acts : List Act) : ResolvesOnce mode acts where
  refused := by
    intro hnone
    rcases (inTurn_afterAll mode initial acts).of_unknown with ⟨-, hall⟩ | ⟨p, _, _, _, hp, -, -⟩
    · exact hall
    · rw [hnone] at hp
      cases hp
  answered := by
    intro p hp
    rcases (inTurn_afterAll mode initial acts).of_unknown with
      ⟨hnone, -⟩ | ⟨q, before, first, later, hq, hasks, hfrom⟩
    · rw [hp] at hnone
      cases hnone
    · obtain rfl : q = p := Option.some.inj (hq.symm.trans hp)
      exact ⟨before, first, later, hasks, hfrom⟩
  kept := fun _ hmet _ hp => tilde_afterAll_of_met hmet hp
  run := fun _ _ _ hx => after_eq_evaluate hx
  complete := by
    intro s act x hx ask hagree
    rw [asksOf_eq hx] at hagree
    exact x.complete hagree
  reached := by
    intro s act x hx t ht ask err hfails hagree
    rw [asksOf_eq hx] at ht
    exact x.reached ht hfails hagree
  constant := by
    intro s act x p hx hp
    rw [after_eq_evaluate hx]
    exact evaluate_congr (x.run_of_known (s := s.started act) hp).symm
  unasked := by
    intro s act hnone
    have hturn := inTurn_after mode s act
    rw [hnone] at hturn
    exact hturn.of_nil
  formula := fun _ _ hv env => hv.toFormula_eq mode env
  asks_iff := fun s v env => v.asks_askingFormula_iff mode env (s.started (.toFormula v env))

/-- With base `~` gone, and then bound to no operator, two asks are refused. The third one is
answered with what it is bound to then, in an evaluation that fails for its depth. A fourth one does
not see that base has its own `~` again. -/
example :
    let call := Expr.call (.symbol .tilde) (.ofList [.const (.int 1)])
    let acts : List Act := [.unbind .base .tilde, .toFormula (.code call) .global,
      .bind .base .tilde .null, .toFormula (.code call) .global,
      .bind .base .tilde (.builtin .quote), .evalWithData (.code call) .null .global,
      .bind .base .tilde (.builtin .tilde), .toFormula (.code call) .global]
    let asks := initial.asks (.restricted 1) acts
    (initial.afterAll (.restricted 1) acts).state.tilde = some .quote ∧
      asks.map (fun t => (baseTilde t).1.toOption) = [none, none, some .quote, some .quote] ∧
      asks.map (fun t => t.depth) = [0, 0, 1, 0] ∧
      (initial.met (.restricted 1) acts).map (fun t => t.state.tilde) =
        [none, none, none, none, none, none, some .quote, some .quote, some .quote] := by
  decide +kernel

end Host

end Overscope
