-- Code in twin overscopes. Each operation gives twin results where its operands do, so code
-- that leaves the names of a mask alone cannot tell an overscope without data from a mask
-- without data, as long as it does not ask for `.env` where the two have different ones: in a
-- quosure without an environment that stands in another scope than the first one.
import Overscope.Proofs.Twins

namespace Overscope

/-! ## Code that keeps away from what differs -/

mutual

/-- No operand that can be evaluated is one of the names. -/
def Expr.Avoids (names : List Name) : Expr → Prop
  | .const v => v.Avoids names
  | .symbol name => name ∉ names
  | .call _ args => args.Avoids names
  | .missing => True
termination_by structural e => e

def Value.Avoids (names : List Name) : Value → Prop
  | .formula _ args _ _ => args.Avoids names
  | _ => True
termination_by structural v => v

def Args.Avoids (names : List Name) : Args → Prop
  | .nil => True
  | .cons e rest => e.Avoids names ∧ rest.Avoids names
termination_by structural args => args

end

mutual

/-- Where the scope `cur` is in force, a quosure without an environment stands in `home`
alone, unless its right-hand side is a constant. A quosure with an environment puts that in
force for its own right-hand side. -/
def Expr.Homely (home cur : EnvId) : Expr → Prop
  | .const v => v.Homely home cur
  | .call _ args => args.Homely home cur
  | .symbol _ | .missing => True
termination_by structural e => e

def Value.Homely (home cur : EnvId) : Value → Prop
  | .formula head args own kind =>
    if head = .symbol .tilde ∧ kind = .quosure then args.RhsHomely home own cur
    else args.Homely home cur
  | _ => True
termination_by structural v => v

def Args.Homely (home cur : EnvId) : Args → Prop
  | .nil => True
  | .cons e rest => e.Homely home cur ∧ rest.Homely home cur
termination_by structural args => args

/-- The same for the right-hand side of a quosure, the last one of its operands. -/
def Args.RhsHomely (home : EnvId) (own : Option EnvId) (cur : EnvId) : Args → Prop
  | .nil => True
  | .cons e rest =>
    (rest = .nil → (e.isSymbolic → own = none → cur = home) ∧ e.Homely home (own.getD cur)) ∧
      rest.RhsHomely home own cur
termination_by structural args => args

end

/-! ## Operators -/

section Operators

variable {n : Nat} {home cur : EnvId} {v w : View}

/-- In the two views the operand gives related results, and learns the same. -/
def ViewOperand.Agrees (R : Value → Value → Prop) (n : Nat) (v w : View)
    (op : ViewOperand) : Prop :=
  ∀ d, Agree R (op.run v d ⟨n⟩) (op.run w d ⟨n + 1⟩)

theorem agree_evalOperandsIn {ops : List ViewOperand}
    (hops : ∀ op ∈ ops, op.Agrees (Value.Twin n) n v w) (d : Option Allowance) :
    Agree (List.Forall₂ (Value.Twin n)) (evalOperandsIn v d ⟨n⟩ ops)
      (evalOperandsIn w d ⟨n + 1⟩ ops) := by
  induction ops with
  | nil => exact agree_pure .nil
  | cons op ops ih =>
    rw [List.forall_mem_cons] at hops
    apply agree_bind (hops.1 d)
    intro u u' hu
    apply agree_bind (ih hops.2)
    intro us us' hus
    exact agree_pure (.cons hu hus)

theorem agree_fail_text (name : Name) (err : String → EvalError) :
    Agree (Value.Twin n) (do .fail (err (← textOf name)) : ViewM Value)
      (do .fail (err (← textOf name))) := by
  apply agree_self
  intro m u hu
  cases hu

/-- A value of a list holds nothing that the list does not hold. -/
theorem Entries.made_get? {entries : Entries} (h : ∀ x ∈ entries.handles, x.index < n)
    {name : Name} {u : Value} (hu : entries.get? name = some u) : u.Made n := by
  obtain ⟨e, he, rfl⟩ := Option.map_eq_some_iff.1 hu
  intro x hx
  exact h x (entries.mem_handles_iff.2 ⟨e, List.mem_of_find?_eq_some he, hx⟩)

/-- Data that holds none but the first frames reads the same in both views. -/
theorem getIn?_eq (h : View.Twins n home cur v w) {source : DataSource}
    (hmade : ∀ x ∈ source.handles, x.index < n) (name : Name) :
    source.getIn? v name = source.getIn? w name ∧
      ∀ u, source.getIn? v name = some u → u.Made n := by
  cases source with
  | list kind entries => exact ⟨rfl, fun u hu => Entries.made_get? hmade hu⟩
  | env e =>
    have he : e.index < n := hmade e (List.mem_singleton.2 rfl)
    exact ⟨h.shared.binding e name he, fun u hu => h.shared.made e name u he hu⟩

/-- What is there under a name, or null. -/
theorem twin_getD {found : Option Value} (hfound : ∀ u, found = some u → u.Made n) :
    Value.Twin n (found.getD .null) (found.getD .null) := by
  rcases found with _ | u
  · exact .same (List.forall_mem_nil _)
  · exact .same (hfound u rfl)

/-- The members of frames and of data are those of the first frames. -/
theorem agree_memberIn (h : View.Twins n home cur v w) {u u' : Value} (hu : Value.Twin n u u')
    (name : Name) : Agree (Value.Twin n) (u.memberIn v name) (u'.memberIn w name) := by
  cases hu with
  | same hmade =>
    cases u with
    | pronoun source absence =>
      obtain ⟨heq, hfound⟩ := getIn?_eq h hmade name
      simp only [Value.memberIn, ← heq]
      rcases hu : source.getIn? v name with _ | u
      · exact agree_fail_text name _
      · exact agree_pure (.same (hfound u hu))
    | list kind entries => exact agree_pure (twin_getD fun u hu => Entries.made_get? hmade hu)
    | env e =>
      have he : e.index < n := hmade e (List.mem_singleton.2 rfl)
      simp only [Value.memberIn, ← h.shared.binding e name he]
      exact agree_pure (twin_getD fun u hu => h.shared.made e name u he hu)
    | _ => exact agree_fail _ _
  | formula head args => exact agree_fail _ _
  | override => exact agree_fail _ _

theorem Expr.handles_quoted (e : Expr) : e.quoted.handles = e.handles := by
  cases e <;> rfl

theorem agree_applyIn (h : View.Twins n home cur v w) {site : ViewSite}
    (hops : ∀ op ∈ site.operands, op.Agrees (Value.Twin n) n v w)
    (hcode : ∀ op ∈ site.operands, ∀ x ∈ op.code.handles, x.index < n)
    (hobject : ∀ f ∈ site.object, f.toValue.Made n) (d : Option Allowance) (p : Primitive) :
    Agree (Value.Twin n) (site.applyIn v d ⟨n⟩ p) (site.applyIn w d ⟨n + 1⟩ p) := by
  obtain ⟨head, ops, object⟩ := site
  cases p with
  | tilde =>
    cases object with
    | none => exact agree_pure (.formula head _)
    | some f => exact agree_pure (.same (hobject f rfl))
  | quote =>
    rcases ops with _ | ⟨op, _ | _⟩
    · exact agree_fail _ _
    · refine agree_pure (.same ?_)
      rw [Value.Made, op.code.handles_quoted]
      exact hcode op (List.mem_singleton.2 rfl)
    · exact agree_fail _ _
  | member =>
    rcases ops with _ | ⟨target, _ | ⟨member, _ | _⟩⟩
    · exact agree_fail _ _
    · exact agree_fail _ _
    · apply agree_bind (hops target (List.mem_cons_self ..) d)
      intro u u' hu
      apply agree_bind (agree_self (R := Eq) fun _ _ _ => rfl)
      rintro name _ rfl
      exact agree_memberIn h hu name
    · exact agree_fail _ _
  | arithmetic op =>
    apply agree_bind (agree_evalOperandsIn hops d)
    intro us us' hus
    rw [op.apply_twin hus]
    apply agree_self
    intro m u hu
    refine .same ?_
    rw [Value.Made, (isNumber_apply hu).handles_eq_nil]
    exact List.forall_mem_nil _

/-- The base `~` is bound in one of the first frames. -/
theorem agree_baseTildeIn (h : View.Twins n home cur v w) :
    Agree Eq (baseTildeIn v) (baseTildeIn w) := by
  have hbase : v.local? .base .tilde = w.local? .base .tilde :=
    h.shared.binding .base .tilde (Nat.zero_lt_of_lt h.cur_lt)
  have heq : baseTildeIn v = baseTildeIn w := by
    unfold baseTildeIn
    rw [hbase]
  rw [heq]
  exact agree_self fun _ _ _ => rfl

/-- The call that the base `~` makes of a call has no object. -/
theorem agree_bare (h : View.Twins n home cur v w) (p : Primitive) {ops : List ViewOperand}
    (hops : ∀ op ∈ ops, op.Agrees (Value.Twin n) n v w)
    (hcode : ∀ op ∈ ops, ∀ x ∈ op.code.handles, x.index < n) (d : Option Allowance) :
    Agree (Value.Twin n) (ViewSite.applyIn ⟨.inlined p, ops, none⟩ v d ⟨n⟩ p)
      (ViewSite.applyIn ⟨.inlined p, ops, none⟩ w d ⟨n + 1⟩ p) := by
  refine @agree_applyIn n home cur v w h ⟨.inlined p, ops, none⟩ hops hcode ?_ d p
  intro f hf
  cases hf

theorem agree_toFormulaIn (h : View.Twins n home cur v w) {site : ViewSite}
    (hops : ∀ op ∈ site.operands, op.Agrees (Value.Twin n) n v w)
    (hcode : ∀ op ∈ site.operands, ∀ x ∈ op.code.handles, x.index < n)
    (hobject : ∀ f ∈ site.object, f.toValue.Made n) (d : Option Allowance) :
    Agree (Value.Twin n) (site.toFormulaIn v d ⟨n⟩) (site.toFormulaIn w d ⟨n + 1⟩) := by
  obtain ⟨head, ops, object⟩ := site
  rcases object with _ | ⟨head', args', _ | e, kind⟩
  case some.some => exact agree_pure (.same (hobject _ rfl))
  all_goals
    apply agree_bind (agree_baseTildeIn h)
    rintro p _ rfl
    apply agree_bind (agree_deeper (agree_bare h p hops hcode) d)
    intro u u' hu
    cases hu with
    | same hmade =>
      cases u with
      | formula head args own kind => exact agree_pure (.same hmade)
      | _ => exact agree_pure (.same hmade)
    | formula head args => exact agree_pure (.formula _ args)
    | override => exact agree_pure .override

/-- Without an environment the overscope goes on in `home`, and the mask where it is. -/
theorem targetIn_eq (h : View.Twins n home cur v w) (own : Option EnvId) :
    targetIn v own ⟨n⟩ = pure (own.getD home) ∧ targetIn w own ⟨n + 1⟩ = pure (own.getD cur) := by
  cases own with
  | some e => exact ⟨rfl, rfl⟩
  | none =>
    unfold targetIn
    rw [h.bareBinds, h.maskBinds]
    exact ⟨rfl, rfl⟩

/-- A quosure goes on in the same scope in both, and does there what its right-hand side does. -/
theorem agree_quosureIn {R : Value → Value → Prop} (h : View.Twins n home cur v w)
    {site : ViewSite} {own : Option EnvId} (hmissing : R .missing .missing)
    (hown : ∀ e ∈ own, e.index < n)
    (hplain : ∀ rhs ∈ site.operands.getLast?, rhs.code.isSymbolic = false → rhs.Agrees R n v w)
    (hhome : ∀ rhs ∈ site.operands.getLast?, rhs.code.isSymbolic → own = none → cur = home)
    (hdeep : ∀ rhs ∈ site.operands.getLast?, ∀ v' w', View.Twins n home (own.getD cur) v' w' →
      rhs.Agrees R n v' w') (d : Option Allowance) :
    Agree R (site.quosureIn own v d ⟨n⟩ ⟨n⟩)
      (site.quosureIn own w d ⟨n + 1⟩ ⟨n⟩) := by
  unfold ViewSite.quosureIn
  rcases hlast : site.operands.getLast? with _ | rhs
  · exact agree_pure hmissing
  · simp only
    split
    · exact agree_pure hmissing
    by_cases hsym : rhs.code.isSymbolic
    · have htarget : (own.getD cur).index < n := by
        cases own with
        | none => exact h.cur_lt
        | some e => exact hown e rfl
      have hsame : own.getD home = own.getD cur := by
        cases own with
        | none => exact (hhome rhs hlast hsym rfl).symm
        | some e => rfl
      obtain ⟨hv, hw⟩ := targetIn_eq h own
      obtain ⟨hoffv, hoffw⟩ := h.shared.not_hasAncestor htarget
      rw [hsame] at hv
      simp only [hsym, h.intact.1.onChain, h.intact.2.onChain, hv, hw, pure_bind, hoffv, hoffw,
        Bool.not_true, Bool.false_eq_true, if_false]
      exact hdeep rhs hlast _ _ (h.splice htarget) d
    · rw [Bool.not_eq_true] at hsym
      simp only [hsym, Bool.not_false, if_true]
      exact hplain rhs hlast hsym d

/-- A call in twin overscopes: `~` is overridden in both, and what stands for any other head is
the same. -/
theorem agree_evalIn {R : Value → Value → Prop} (h : View.Twins n home cur v w) {site : ViewSite}
    (happly : ∀ d p, site.head ≠ .symbol .tilde →
      Agree R (site.applyIn v d ⟨n⟩ p) (site.applyIn w d ⟨n + 1⟩ p))
    (htilde : ∀ d, site.head = .symbol .tilde →
      Agree R (site.overriddenIn v d ⟨n⟩ ⟨n⟩) (site.overriddenIn w d ⟨n + 1⟩ ⟨n⟩))
    (d : Option Allowance) :
    Agree R (site.evalIn v d ⟨n⟩) (site.evalIn w d ⟨n + 1⟩) := by
  apply agree_deeper
  intro d
  rcases hhead : site.head with name | p
  · by_cases hname : name = .tilde
    · subst hname
      rw [h.intact.1.resolveIn, h.intact.2.resolveIn, pure_bind, pure_bind]
      simp only [h.liveBare, h.liveMask, h.liveBottom, Bool.and_self, if_true]
      exact htilde d hhead
    · obtain ⟨heq, hwhat⟩ := h.resolveIn_eq hname
      rw [← heq]
      rcases hwhat with ⟨p, hp⟩ | hnone
      · rw [hp, pure_bind, pure_bind]
        refine happly d p ?_
        rw [hhead]
        exact fun hc => hname (Head.symbol.inj hc)
      · rw [hnone]
        intro m
        exact ⟨.error _, rfl⟩
  · refine happly d p ?_
    rw [hhead]
    exact Head.noConfusion

/-- A call that is no quosure of `~` evaluates its operands where it stands. -/
theorem agree_evalIn_of_operands (h : View.Twins n home cur v w) {site : ViewSite}
    (hops : ∀ op ∈ site.operands, op.Agrees (Value.Twin n) n v w)
    (hcode : ∀ op ∈ site.operands, ∀ x ∈ op.code.handles, x.index < n)
    (hobject : ∀ f ∈ site.object, f.toValue.Made n)
    (hplain : ∀ f ∈ site.object, site.head = .symbol .tilde → f.kind = .plain)
    (d : Option Allowance) :
    Agree (Value.Twin n) (site.evalIn v d ⟨n⟩) (site.evalIn w d ⟨n + 1⟩) := by
  refine agree_evalIn h (fun d p _ => agree_applyIn h hops hcode hobject d p) ?_ d
  intro d hhead
  have hformula := agree_toFormulaIn h hops hcode hobject d
  unfold ViewSite.overriddenIn
  rcases hsite : site.object with _ | ⟨head, args, own, _ | _⟩
  · exact hformula
  · exact hformula
  · cases hplain _ hsite hhead

end Operators

/-! ## Code -/

theorem Args.code_mem_of_operandsIn {args : Args} {op : ViewOperand} (hop : op ∈ args.operandsIn) :
    op.code ∈ args.toList := by
  cases args with
  | nil => cases hop
  | cons e rest =>
    rcases List.mem_cons.1 hop with rfl | hrest
    · exact List.mem_cons_self ..
    · exact List.mem_cons_of_mem _ (Args.code_mem_of_operandsIn hrest)

/-- Operands hold what their call holds. -/
theorem Args.made_of_operandsIn {n : Nat} {args : Args} (hmade : ∀ x ∈ args.handles, x.index < n) :
    ∀ op ∈ args.operandsIn, ∀ x ∈ op.code.handles, x.index < n := by
  intro op hop x hx
  exact hmade x (args.mem_handles_iff.2 ⟨op.code, Args.code_mem_of_operandsIn hop, hx⟩)

section Code

variable {n : Nat} {home : EnvId}

/-- What is no symbol and no call is its own value anywhere. -/
theorem Expr.agree_of_not_isSymbolic {e : Expr} (he : e.isSymbolic = false)
    (hmade : ∀ x ∈ e.handles, x.index < n) (v w : View) (d : Option Allowance) (env env' : EnvId) :
    Agree (Value.Twin n) (e.evalIn v d env) (e.evalIn w d env') := by
  cases e with
  | const u =>
    cases u with
    | formula head args own kind => cases he
    | _ => exact agree_pure (.same hmade)
  | symbol name => cases he
  | call head args => cases he
  | missing => exact agree_pure (.same (List.forall_mem_nil _))

mutual

/-- Code that keeps away from what differs gives twin results. -/
theorem Expr.agree_evalIn (e : Expr) {cur : EnvId} {v w : View} (h : View.Twins n home cur v w)
    (hmade : ∀ x ∈ e.handles, x.index < n) (havoids : e.Avoids reservedNames)
    (hhome : e.Homely home cur) (d : Option Allowance) :
    Agree (Value.Twin n) (e.evalIn v d ⟨n⟩) (e.evalIn w d ⟨n + 1⟩) := by
  cases e with
  | const u => exact u.agree_evalInlinedIn h hmade havoids hhome d
  | symbol name =>
    simp only [Expr.evalIn]
    have hfound := h.resolve?_twin havoids
    rcases hv : v.resolve? ⟨n⟩ name with _ | u
    · rcases hw : w.resolve? ⟨n + 1⟩ name with _ | u'
      · exact agree_fail_text name _
      · rw [hv, hw] at hfound
        cases hfound
    · rcases hw : w.resolve? ⟨n + 1⟩ name with _ | u'
      · rw [hv, hw] at hfound
        cases hfound
      · rw [hv, hw] at hfound
        cases hfound with
        | some hu => exact agree_pure hu
  | call head args =>
    have hnone : ∀ f ∈ (none : Option Formula), False := fun f hf => by cases hf
    exact agree_evalIn_of_operands h (args.twin_operandsIn h hmade havoids hhome)
      (Args.made_of_operandsIn hmade) (fun f hf => absurd (hnone f hf) id)
      (fun f hf => absurd (hnone f hf) id) d
  | missing => exact agree_pure (.same (List.forall_mem_nil _))

theorem Value.agree_evalInlinedIn (u : Value) {cur : EnvId} {v w : View}
    (h : View.Twins n home cur v w) (hmade : u.Made n) (havoids : u.Avoids reservedNames)
    (hhome : u.Homely home cur) (d : Option Allowance) :
    Agree (Value.Twin n) (u.evalInlinedIn v d ⟨n⟩) (u.evalInlinedIn w d ⟨n + 1⟩) := by
  cases u with
  | formula head args own kind =>
    have hargs : ∀ x ∈ args.handles, x.index < n := fun x hx =>
      hmade x (mem_joinHandles.2 (Or.inr hx))
    have hobject : ∀ f ∈ some (Formula.mk head args own kind), f.toValue.Made n := by
      intro f hf
      cases hf
      exact hmade
    rw [Value.Homely] at hhome
    split at hhome
    · next hquosure =>
      obtain ⟨rfl, rfl⟩ := hquosure
      have hrhs := args.twin_rhs hargs havoids hhome
      have hcode := Args.made_of_operandsIn hargs
      refine agree_evalIn h (fun d p hne => absurd rfl hne) ?_ d
      intro d _
      refine agree_quosureIn h (.same (List.forall_mem_nil _)) ?_ ?_
        (fun rhs hlast => (hrhs rhs hlast).1) (fun rhs hlast => (hrhs rhs hlast).2) d
      · intro e he
        exact hmade e (mem_joinHandles.2 (Or.inl (Option.mem_toList.2 he)))
      · intro rhs hlast hsym d
        have hmem := List.mem_of_getLast? hlast
        rw [Args.run_of_mem_operandsIn hmem]
        exact Expr.agree_of_not_isSymbolic hsym (hcode rhs hmem) v w d _ _
    · next hother =>
      refine agree_evalIn_of_operands h (args.twin_operandsIn h hargs havoids hhome)
        (Args.made_of_operandsIn hargs) hobject ?_ d
      intro f hf hhead
      cases hf
      cases kind with
      | plain => rfl
      | quosure => exact absurd ⟨hhead, rfl⟩ hother
  | _ => exact agree_pure (.same hmade)

theorem Args.twin_operandsIn (args : Args) {cur : EnvId} {v w : View}
    (h : View.Twins n home cur v w) (hmade : ∀ x ∈ args.handles, x.index < n)
    (havoids : args.Avoids reservedNames) (hhome : args.Homely home cur) :
    ∀ op ∈ args.operandsIn, op.Agrees (Value.Twin n) n v w := by
  cases args with
  | nil => exact List.forall_mem_nil _
  | cons e rest =>
    have hparts := fun x hx => hmade x (mem_joinHandles.2 hx)
    rw [Args.operandsIn, List.forall_mem_cons]
    constructor
    · intro d
      exact e.agree_evalIn h (fun x hx => hparts x (Or.inl hx)) havoids.1 hhome.1 d
    · exact rest.twin_operandsIn h (fun x hx => hparts x (Or.inr hx)) havoids.2 hhome.2

/-- The right-hand side of a quosure, in the scope of the quosure. -/
theorem Args.twin_rhs (args : Args) {own : Option EnvId} {cur : EnvId}
    (hmade : ∀ x ∈ args.handles, x.index < n) (havoids : args.Avoids reservedNames)
    (hhome : args.RhsHomely home own cur) :
    ∀ rhs ∈ args.operandsIn.getLast?, (rhs.code.isSymbolic → own = none → cur = home) ∧
      ∀ v w, View.Twins n home (own.getD cur) v w → rhs.Agrees (Value.Twin n) n v w := by
  cases args with
  | nil =>
    intro rhs hrhs
    cases hrhs
  | cons e rest =>
    have hparts := fun x hx => hmade x (mem_joinHandles.2 hx)
    intro rhs hrhs
    cases rest with
    | nil =>
      obtain ⟨hsym, hdeep⟩ := hhome.1 rfl
      obtain rfl := Option.some.inj hrhs
      refine ⟨hsym, ?_⟩
      intro v w h d
      exact e.agree_evalIn h (fun x hx => hparts x (Or.inl hx)) havoids.1 hdeep d
    | cons e' rest =>
      refine (Args.cons e' rest).twin_rhs (fun x hx => hparts x (Or.inr hx)) havoids.2 hhome.2
        rhs ?_
      rw [Args.operandsIn, Args.operandsIn, List.getLast?_cons_cons] at hrhs
      exact hrhs

end

/-! ### A symbol inside of quosures -/

/-- The symbol by itself, or a quosure over such code, with an environment or without one. -/
inductive Expr.Nests (name : Name) : Expr → Prop
  | symbol : Nests name (.symbol name)
  | quosure {e : Expr} (own : Option EnvId) :
    Nests name e → Nests name (.const (Formula.quosure e own).toValue)

theorem Expr.Nests.not_mem_of_avoids {name : Name} {names : List Name} {e : Expr}
    (hn : e.Nests name) (havoids : e.Avoids names) : name ∉ names := by
  induction hn with
  | symbol => exact havoids
  | quosure own hn ih => exact ih havoids.1

/-- A symbol means the same inside of any quosures that keep away from what differs. -/
theorem Expr.Nests.agree_evalIn {name : Name} {e : Expr} (hn : e.Nests name)
    (hname : name ∉ reservedNames) (htilde : name ≠ .tilde) {cur : EnvId} {v w : View}
    (h : View.Twins n home cur v w) (hmade : ∀ x ∈ e.handles, x.index < n)
    (hhome : e.Homely home cur) (d : Option Allowance) :
    Agree Eq (e.evalIn v d ⟨n⟩) (e.evalIn w d ⟨n + 1⟩) := by
  induction hn generalizing cur v w d with
  | symbol =>
    simp only [Expr.evalIn]
    rw [(h.resolve?_eq hname htilde).1]
    exact agree_self fun _ _ _ => rfl
  | @quosure e own hn ih =>
    have hsym : e.isSymbolic = true := by
      cases hn <;> rfl
    have hparts := fun x hx => hmade x (mem_joinHandles.2 hx)
    have hinner : (e.isSymbolic → own = none → cur = home) ∧ e.Homely home (own.getD cur) :=
      hhome.1 rfl
    have hrhs : ∀ rhs ∈ (Formula.quosure e own).args.operandsIn.getLast?, rhs = ⟨e, e.evalIn⟩ :=
      fun rhs hlast => (Option.some.inj hlast).symm
    refine Overscope.agree_evalIn h (fun d p hne => absurd rfl hne) ?_ d
    intro d _
    refine agree_quosureIn h rfl ?_ ?_ ?_ ?_ d
    · intro x hx
      exact hparts x (Or.inl (Option.mem_toList.2 hx))
    · intro rhs hlast hconst
      rw [hrhs rhs hlast] at hconst
      rw [hsym] at hconst
      cases hconst
    · intro rhs hlast
      obtain rfl := hrhs rhs hlast
      exact hinner.1
    · intro rhs hlast v' w' h' d
      obtain rfl := hrhs rhs hlast
      exact ih h' (fun x hx => hparts x (Or.inr (mem_joinHandles.2 (Or.inl hx)))) hinner.2 d

end Code

end Overscope
