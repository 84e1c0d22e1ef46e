-- What an evaluation can evaluate in turn, whatever it finds: an operand of its own, or once
-- its own operands again, with an operator in the head. What a lookup gives is not among
-- that, so no evaluation goes on for ever because of what the names in the code mean.
import Overscope.Proofs.InForce
import Overscope.Proofs.Nesting
import Overscope.Proofs.Procedure

namespace Overscope

/-! ## Evaluations inside of evaluations -/

/-- The operands of a call or of a formula object. -/
def Expr.args : Expr → Args
  | .call _ args | .const (.formula _ args _ _) => args
  | .symbol _ | .const _ | .missing => .nil

/-- The second expression is a call of the operands of the first one, with an operator in the
head. -/
def Expr.Again (e e' : Expr) : Prop := ∃ p, e' = .call (.inlined p) e.args

/-- In the course of evaluating the first expression the second one can be evaluated. With an
operator in the head already, there are the operands alone. -/
inductive Expr.Starts (e e' : Expr) : Prop
  | operand : e' ∈ e.args.toList → e.Starts e'
  | again {name : Name} : e.head? = some (.symbol name) → e.Again e' → e.Starts e'

/-- Twice the height, and one more for a symbol in the head. -/
def Expr.rank (e : Expr) : Nat :=
  2 * e.height + match e.head? with
    | some (.symbol _) => 1
    | _ => 0

theorem Args.height_le_of_mem {args : Args} {e : Expr} (he : e ∈ args.toList) :
    e.height ≤ args.height := by
  cases args with
  | nil => cases he
  | cons e' rest =>
    rw [Args.height]
    rcases List.mem_cons.1 he with rfl | hrest
    · exact Nat.le_max_left ..
    · exact Nat.le_trans (Args.height_le_of_mem hrest) (Nat.le_max_right ..)

/-- What has operands is higher than they are. -/
theorem Expr.height_eq_of_args {e e' : Expr} (he : e' ∈ e.args.toList) :
    e.height = 1 + e.args.height := by
  cases e with
  | call head args => rfl
  | const v =>
    cases v with
    | formula head args own kind => rfl
    | _ => cases he
  | _ => cases he

theorem Expr.rank_le (e : Expr) : e.rank ≤ 2 * e.height + 1 := by
  unfold rank
  split <;> omega

theorem Expr.rank_lt_of_starts {e e' : Expr} (h : e.Starts e') : e'.rank < e.rank := by
  cases h with
  | operand he =>
    have hheight := Args.height_le_of_mem he
    have hrank := e'.rank_le
    have hlower : 2 * e.height ≤ e.rank := Nat.le_add_right ..
    rw [e.height_eq_of_args he] at hlower
    omega
  | again hhead hagain =>
    obtain ⟨p, rfl⟩ := hagain
    have hrank : e.rank = 2 * e.height + 1 := by rw [rank, hhead]
    have hheight : e.height = 1 + e.args.height := by
      cases e with
      | call head args => rfl
      | const v =>
        cases v with
        | formula head args own kind => rfl
        | _ => cases hhead
      | _ => cases hhead
    show 2 * (1 + e.args.height) + 0 < e.rank
    omega

/-- No evaluation starts another one, and that another one, and so on for ever. -/
theorem Expr.wellFounded_starts : WellFounded fun e' e : Expr => e.Starts e' :=
  Subrelation.wf Expr.rank_lt_of_starts (measure Expr.rank).wf

/-! ## What procedures evaluate -/

namespace Proc

variable {α β : Type} {P Q : Expr → Prop}

theorem calls_step (x : EvalM α) : (step x).Calls P := trivial

theorem calls_pure (a : α) : (pure a : Proc α).Calls P := trivial

theorem calls_bind {p : Proc α} {k : α → Proc β} (hp : p.Calls P) (hk : ∀ a, (k a).Calls P) :
    (p >>= k).Calls P := by
  refine ⟨hp, ?_⟩
  intro r
  cases r with
  | ok a => exact hk a
  | error err => trivial

theorem calls_evaluate {e : Expr} (he : P e) (env : EnvId) : (evaluate e env).Calls P :=
  ⟨he, fun _ => trivial⟩

theorem calls_up (stop : Heap → EnvId → Bool) (e : EnvId) : (up stop e).Calls P := fun _ => trivial

theorem calls_onChain (e other : EnvId) : (onChain e other).Calls P :=
  calls_bind (calls_up _ e) fun _ => calls_pure _

theorem calls_lookup (accept : Value → Bool) (name : Name) (env : EnvId) :
    (lookup accept name env).Calls P :=
  calls_bind (calls_up _ env) fun _ => trivial

theorem calls_around {enter leave : State → State} {p : Proc α} (hp : p.Calls P) :
    (around enter leave p).Calls P := by
  refine calls_bind (calls_step _) fun _ => ⟨hp, fun r => ?_⟩
  exact calls_bind (calls_step _) fun _ => trivial

theorem calls_deeper {mode : Mode} {p : Proc α} (hp : p.Calls P) : (deeper mode p).Calls P := by
  apply calls_bind (calls_step _)
  intro depth
  split
  · trivial
  · exact calls_around hp

theorem calls_guarded {guard : Guard} {p : Proc α} (hp : p.Calls P) : (guarded guard p).Calls P :=
  calls_bind (calls_step _) fun _ => calls_around hp

theorem calls_withBinding {e : EnvId} {name : Name} {v : Value} {p : Proc α} (hp : p.Calls P) :
    (withBinding e name v p).Calls P := by
  apply calls_bind (calls_step _)
  intro swapped
  exact calls_bind (calls_step _) fun _ => calls_guarded hp

theorem calls_withParent {e parent : EnvId} {p : Proc α} (hp : p.Calls P) :
    (withParent e parent p).Calls P := by
  apply calls_bind (calls_onChain parent e)
  intro found
  split
  · trivial
  · exact calls_bind (calls_step _) fun _ => calls_bind (calls_step _) fun _ => calls_guarded hp

theorem calls_withScope {overscope top target : EnvId} {p : Proc α} (hp : p.Calls P) :
    (withScope overscope top target p).Calls P := by
  apply calls_bind (calls_step _)
  intro isMask
  split
  · exact calls_withBinding (calls_withParent hp)
  · exact calls_withParent hp

theorem calls_evalEach {es : List Expr} (hes : ∀ e ∈ es, P e) (env : EnvId) :
    (evalEach es env).Calls P := by
  induction es with
  | nil => trivial
  | cons e es ih =>
    rw [List.forall_mem_cons] at hes
    apply calls_bind (calls_evaluate hes.1 env)
    intro v
    exact calls_bind (ih hes.2) fun _ => calls_pure _

theorem calls_apply (head : Head) {args : Args} (object : Option Formula) (env : EnvId)
    (hargs : ∀ e ∈ args.toList, P e) (p : Primitive) : (apply head args object env p).Calls P := by
  cases p with
  | tilde => trivial
  | quote =>
    rw [apply]
    split <;> trivial
  | member =>
    rw [apply]
    split
    · next target name heq =>
      have htarget : target ∈ args.toList := by
        rw [heq]
        exact List.mem_cons_self ..
      exact calls_bind (calls_evaluate (hargs target htarget) env) fun _ => calls_step _
    · trivial
  | arithmetic op => exact calls_bind (calls_evalEach hargs env) fun _ => trivial

theorem calls_toFormula {args : Args} (object : Option Formula) (env : EnvId)
    (hagain : ∀ p, P (.call (.inlined p) args)) : (toFormula args object env).Calls P := by
  unfold toFormula
  split
  · trivial
  · apply calls_bind (calls_step _)
    intro p
    apply calls_bind (calls_evaluate (hagain p) env)
    intro v
    split <;> trivial

theorem calls_evalQuosure {args : Args} (own : Option EnvId) (overscope top : EnvId)
    (hargs : ∀ e ∈ args.toList, P e) : (evalQuosure args own overscope top).Calls P := by
  unfold evalQuosure
  split
  · trivial
  · next rhs hlast =>
    have hrhs := calls_evaluate (hargs rhs (List.mem_of_getLast? hlast)) overscope
    split
    · trivial
    split
    · exact hrhs
    apply calls_bind (calls_onChain overscope top)
    intro found
    split
    · exact calls_bind (calls_step _) fun _ => calls_withScope hrhs
    · trivial

theorem calls_overridden {args : Args} (object : Option Formula) (overscope top : EnvId)
    (hargs : ∀ e ∈ args.toList, P e) (hagain : ∀ p, P (.call (.inlined p) args)) :
    (overridden args object overscope top).Calls P := by
  unfold overridden
  split
  · exact calls_evalQuosure _ overscope top hargs
  · exact calls_toFormula object overscope hagain

/-- A call evaluates its operands, and its operands again only after a lookup of its head. -/
theorem calls_call (mode : Mode) (head : Head) {args : Args} (object : Option Formula)
    (env : EnvId) (hargs : ∀ e ∈ args.toList, P e)
    (hagain : ∀ name, head = .symbol name → ∀ p, P (.call (.inlined p) args)) :
    (call mode head args object env).Calls P := by
  apply calls_deeper
  cases head with
  | inlined p => exact calls_apply (.inlined p) object env hargs p
  | symbol name =>
    apply calls_bind (calls_lookup _ name env)
    intro found
    split
    · trivial
    · exact calls_apply (.symbol name) object env hargs _
    · exact calls_bind (calls_step _) fun _ => calls_overridden object _ _ hargs (hagain name rfl)

end Proc

/-- Whatever the steps and the lookups give, an evaluation starts none but those of operands and
of its operands again. -/
theorem Expr.calls_proc (mode : Mode) (e : Expr) (env : EnvId) :
    (e.proc mode env).Calls e.Starts := by
  cases e with
  | const v =>
    cases v with
    | formula head args own kind =>
      apply Proc.calls_call
      · exact fun e he => .operand he
      · rintro name rfl p
        exact .again rfl ⟨p, rfl⟩
    | _ => trivial
  | symbol name =>
    apply Proc.calls_bind (Proc.calls_lookup _ name env)
    intro found
    split <;> trivial
  | call head args =>
    apply Proc.calls_call
    · exact fun e he => .operand he
    · rintro name rfl p
      exact .again rfl ⟨p, rfl⟩
  | missing => trivial

theorem Value.calls_tildeProc (v : Value) (overscope top : EnvId) :
    (v.tildeProc overscope top).Calls fun e => e ∈ v.toExpr.args.toList ∨ v.toExpr.Again e := by
  cases v with
  | formula head args own kind =>
    exact Proc.calls_overridden _ overscope top (fun _ he => Or.inl he) fun p => Or.inr ⟨p, rfl⟩
  | code e =>
    cases e with
    | call head args =>
      exact Proc.calls_overridden none overscope top (fun _ he => Or.inl he)
        fun p => Or.inr ⟨p, rfl⟩
    | _ => trivial
  | _ => trivial

theorem Value.calls_formulaProc (v : Value) (env : EnvId) :
    (v.formulaProc env).Calls v.toExpr.Again := by
  cases v with
  | formula head args own kind => exact Proc.calls_toFormula _ env fun p => ⟨p, rfl⟩
  | code e =>
    cases e with
    | call head args => exact Proc.calls_toFormula none env fun p => ⟨p, rfl⟩
    | _ => trivial
  | _ => trivial

namespace Proc

variable {P : Expr → Prop}

theorem calls_alloc (make : Heap → EnvId × Heap) : (alloc make).Calls P :=
  calls_bind (calls_step _) fun _ => calls_bind (calls_step _) fun _ => calls_pure _

theorem calls_maskOver (bottom scope : EnvId) : (maskOver bottom scope).Calls P := by
  apply calls_bind (calls_onChain bottom bottom)
  intro found
  split
  · exact calls_alloc _
  · trivial

theorem calls_maskOf (data : Value) (scope : EnvId) : (maskOf data scope).Calls P := by
  cases data with
  | null => exact calls_bind (calls_alloc _) fun bottom => calls_maskOver bottom scope
  | env e =>
    apply calls_bind (calls_alloc _)
    intro bottom
    exact calls_bind (calls_step _) fun _ => calls_maskOver bottom scope
  | list kind entries =>
    rw [maskOf]
    split
    · trivial
    · apply calls_bind (calls_alloc _)
      intro bottom
      exact calls_bind (calls_step _) fun _ => calls_maskOver bottom scope
  | _ => trivial

theorem calls_clearTo (bottom top : EnvId) : (clearTo bottom top).Calls P := by
  apply calls_bind (calls_onChain bottom top)
  intro found
  split
  · exact calls_bind (calls_up _ bottom) fun _ => calls_step _
  · trivial

theorem calls_strip (mask : EnvId) : (strip mask).Calls P := by
  apply calls_bind (calls_step _)
  intro bottom
  apply calls_bind (calls_step _)
  intro topEnv
  apply calls_bind (calls_step _)
  intro _
  split
  · exact calls_clearTo _ _
  · trivial

theorem calls_inOwnMask {build : Proc EnvId} {takeDown : EnvId → Proc Unit} {e : Expr}
    (hbuild : build.Calls P) (htake : ∀ mask, (takeDown mask).Calls P) (he : P e) :
    (inOwnMask build takeDown e).Calls P := by
  apply calls_bind (calls_step _)
  intro held
  apply calls_bind hbuild
  intro mask
  apply calls_bind (calls_step _)
  intro _
  refine ⟨he, ?_⟩
  intro r
  apply calls_bind (htake mask)
  intro _
  exact calls_bind (calls_step _) fun _ => trivial

/-- Against data one expression is evaluated, the one that the code stands for. -/
theorem calls_withData (code data : Value) (env : EnvId) :
    (withData code data env).Calls (· = code.body) := by
  apply calls_bind (calls_step _)
  intro found
  split
  · have hpoint : ∀ mask, (point mask (code.scopeOr env)).Calls (· = code.body) := by
      intro mask
      apply calls_bind (calls_step _)
      intro top
      apply calls_bind (calls_onChain _ top)
      intro found
      split <;> trivial
    exact calls_bind (hpoint _) fun _ => calls_evaluate (P := (· = code.body)) rfl _
  · split
    · exact calls_inOwnMask (calls_alloc _) (fun _ => trivial) rfl
    · exact calls_inOwnMask (calls_maskOf _ _) calls_strip rfl

end Proc

end Overscope
