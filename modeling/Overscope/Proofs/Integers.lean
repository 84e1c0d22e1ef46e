-- Code of integers. It is built from integer constants with sums, differences, products and signs,
-- to any depth, and each head is an operator or a name for one. Every part has an exact value. The
-- evaluator works with integers of 64 bits, and finds that value, or refuses the first part, in the
-- order in which the parts are worked out, whose value they cannot hold.
import Overscope.Proofs.Splicing

namespace Overscope

/-! ## Integers of 64 bits -/

/-- The value is in the range of the integers. -/
def InRange (n : Int) : Prop := Int64.minValue.toInt ≤ n ∧ n ≤ Int64.maxValue.toInt

instance (n : Int) : Decidable (InRange n) := inferInstanceAs (Decidable (_ ∧ _))

theorem inRange_toInt (n : Int64) : InRange n.toInt := ⟨n.minValue_le_toInt, n.toInt_le⟩

theorem InRange.toInt_ofInt {n : Int} (h : InRange n) : (Int64.ofInt n).toInt = n :=
  Int64.toInt_ofInt_of_le h.1 (Int.lt_add_one_of_le h.2)

theorem exactInt_of_inRange {n : Int} (h : InRange n) (operation : String) :
    exactInt operation n = .ok (.int (.ofInt n)) := if_pos h

theorem exactInt_of_not_inRange {n : Int} (h : ¬ InRange n) (operation : String) :
    exactInt operation n = .error (.integerOverflow operation) := if_neg h

/-- A sign before a value. -/
inductive Sign where
  | plus
  | minus
deriving DecidableEq, Repr

namespace Sign

/-- The operator that is a sign where it has one operand. -/
def operator : Sign → Operator
  | .plus => .add
  | .minus => .sub

/-- How a refusal names it. -/
def operation : Sign → String
  | .plus => "+"
  | .minus => "negation"

def exact : Sign → Int → Int
  | .plus, n => n
  | .minus, n => -n

theorem apply_int (sign : Sign) (n : Int64) :
    sign.operator.apply [.int n] = exactInt sign.operation (sign.exact n.toInt) := by
  cases sign with
  | plus =>
    show Except.ok (Value.int n) = exactInt "+" n.toInt
    rw [exactInt_of_inRange (inRange_toInt n), Int64.ofInt_toInt]
  | minus => rfl

end Sign

/-- An operator that makes an integer of two. -/
inductive IntOperator where
  | add
  | sub
  | mul
deriving DecidableEq, Repr

namespace IntOperator

def operator : IntOperator → Operator
  | .add => .add
  | .sub => .sub
  | .mul => .mul

def exact : IntOperator → Int → Int → Int
  | .add, m, n => m + n
  | .sub, m, n => m - n
  | .mul, m, n => m * n

theorem apply_ints (op : IntOperator) (m n : Int64) :
    op.operator.apply [.int m, .int n] =
      exactInt op.operator.symbol (op.exact m.toInt n.toInt) := by
  cases op <;> rfl

end IntOperator

/-! ## Code of integers -/

/-- Code that is built from integers. A call has the head that it is written with. -/
inductive IntCode where
  | literal (n : Int64)
  | signed (sign : Sign) (head : Head) (operand : IntCode)
  | binary (op : IntOperator) (head : Head) (left right : IntCode)
deriving DecidableEq, Repr

namespace IntCode

def toExpr : IntCode → Expr
  | literal n => .const (.int n)
  | signed _ head operand => .call head (.ofList [operand.toExpr])
  | binary _ head left right => .call head (.ofList [left.toExpr, right.toExpr])

/-- The exact value. -/
def value : IntCode → Int
  | literal n => n.toInt
  | signed sign _ operand => sign.exact operand.value
  | binary op _ left right => op.exact left.value right.value

/-- The operation that works out the value, as a refusal names it. -/
def operation? : IntCode → Option String
  | literal _ => none
  | signed sign _ _ => some sign.operation
  | binary op _ _ _ => some op.operator.symbol

/-- All parts. Each comes after its own parts, and those on the left before those on the right. -/
def parts : IntCode → List IntCode
  | literal n => [literal n]
  | signed sign head operand => operand.parts ++ [signed sign head operand]
  | binary op head left right => left.parts ++ right.parts ++ [binary op head left right]

/-- Each head stands for the operator that it is to be. -/
def Resolves (env : EnvId) (s : State) : IntCode → Prop
  | literal _ => True
  | signed sign head operand =>
    (head.resolve env s).1 = .ok (.builtin (.arithmetic sign.operator)) ∧ operand.Resolves env s
  | binary op head left right =>
    (head.resolve env s).1 = .ok (.builtin (.arithmetic op.operator)) ∧
      left.Resolves env s ∧ right.Resolves env s

def Fits (t : IntCode) : Prop := InRange t.value

instance (t : IntCode) : Decidable t.Fits := inferInstanceAs (Decidable (InRange _))

/-- The first of some parts whose value is out of range. -/
def firstOutside? (ts : List IntCode) : Option IntCode := ts.find? fun t => ¬ t.Fits

theorem firstOutside?_eq_none_iff {ts : List IntCode} :
    firstOutside? ts = none ↔ ∀ t ∈ ts, t.Fits := by
  simp [firstOutside?]

theorem firstOutside?_append {ts us : List IntCode} :
    firstOutside? (ts ++ us) = (firstOutside? ts).or (firstOutside? us) := List.find?_append

theorem firstOutside?_append_of_none {ts : List IntCode} (h : firstOutside? ts = none)
    (us : List IntCode) : firstOutside? (ts ++ us) = firstOutside? us := by
  rw [firstOutside?_append, h, Option.none_or]

theorem firstOutside?_append_of_some {ts : List IntCode} {u : IntCode}
    (h : firstOutside? ts = some u) (us : List IntCode) : firstOutside? (ts ++ us) = some u := by
  rw [firstOutside?_append, h, Option.some_or]

theorem self_mem_parts (t : IntCode) : t ∈ t.parts := by
  cases t with
  | literal n => exact List.mem_singleton_self _
  | signed sign head operand => exact List.mem_append_right _ (List.mem_singleton_self _)
  | binary op head left right => exact List.mem_append_right _ (List.mem_singleton_self _)

theorem fits_of_none {t : IntCode} (h : firstOutside? t.parts = none) : t.Fits :=
  firstOutside?_eq_none_iff.1 h t t.self_mem_parts

/-! ## What the evaluator makes of it -/

/-- The exact value, or the refusal of the first part that is out of range. -/
inductive Gives (t : IntCode) : Except EvalError Value → Prop
  | exact : firstOutside? t.parts = none → Gives t (.ok (.int (.ofInt t.value)))
  | refused {u : IntCode} {operation : String} : firstOutside? t.parts = some u →
      u.operation? = some operation → Gives t (.error (.integerOverflow operation))

/-- The last step, after all parts inside. -/
theorem gives_exactInt {t : IntCode} {inner : List IntCode} {operation : String}
    (hparts : t.parts = inner ++ [t]) (hinner : firstOutside? inner = none)
    (hop : t.operation? = some operation) : t.Gives (exactInt operation t.value) := by
  have hfirst : firstOutside? t.parts = firstOutside? [t] := by
    rw [hparts, firstOutside?_append_of_none hinner]
  by_cases ht : t.Fits
  · rw [exactInt_of_inRange ht]
    refine .exact ?_
    rw [hfirst, firstOutside?_eq_none_iff, List.forall_mem_singleton]
    exact ht
  · rw [exactInt_of_not_inRange ht]
    refine .refused ?_ hop
    rw [hfirst]
    simp [firstOutside?, ht]

end IntCode

/-- What a head stands for does not depend on the depth. -/
theorem Head.resolve_at_depth {head : Head} {env : EnvId} {s : State} {c : Callable}
    (hc : (head.resolve env s).1 = .ok c) (d : Nat) :
    head.resolve env { s with depth := d } = (.ok c, { s with depth := d }) :=
  Head.resolve_of_heap (s := s) rfl hc

section
variable {head : Head} {op : Operator} {env : EnvId} {s : State}
  (hc : (head.resolve env s).1 = .ok (.builtin (.arithmetic op)))

include hc

/-- The operands are evaluated one call deeper, and the operator is applied to them. -/
theorem Expr.eval_arithmetic_run {args : Args} {vs : Except EvalError (List Value)}
    (hvs : evalOperands (args.operands .unlimited) env { s with depth := s.depth + 1 } =
      (vs, { s with depth := s.depth + 1 })) :
    (Expr.call head args).eval .unlimited env s = (vs.bind op.apply, s) := by
  show (CallSite.mk head (args.operands .unlimited) none).eval .unlimited env s = _
  rw [CallSite.eval_eq_dispatch]
  refine nested_unlimited_run rfl ?_
  rw [Attempt.bind_run_ok (Head.resolve_at_depth hc _)]
  show (evalOperands (args.operands .unlimited) env >>= fun vs => .ofExcept (op.apply vs)) _ = _
  rw [Attempt.bind_run, hvs]
  cases vs <;> rfl

theorem Expr.visits_arithmetic (args : Args) :
    ((Expr.call head args).trace .unlimited env).visits s =
      ⟨.call head args, env, s⟩ ::
        (traceOperands (args.traced .unlimited) env).visits { s with depth := s.depth + 1 } := by
  show _ :: (Traced.inside (fun _ => nested .unlimited) _).visits s = _
  rw [visits_inside_ok (prepares_nested_unlimited s),
    Traced.visits_silent_bind_ok (Head.resolve_at_depth hc _)]
  show _ :: (traceOperands (args.traced .unlimited) env >>= fun vs =>
    Traced.silent (.ofExcept (op.apply vs))).visits _ = _
  rcases hr : (traceOperands (args.traced .unlimited) env).run { s with depth := s.depth + 1 }
    with ⟨err | vs, s'⟩
  · rw [Traced.visits_bind_error hr]
  · rw [Traced.visits_bind_ok hr]
    exact congrArg (List.cons _) (List.append_nil _)

end

section
variable {mode : Mode} {e left right : Expr} {r r' : Except EvalError Value} {env : EnvId}
  {s : State}

theorem evalOperands_one_run (h : e.eval mode env s = (r, s)) :
    evalOperands ((Args.ofList [e]).operands mode) env s = (r.map fun v => [v], s) := by
  show (e.eval mode env >>= fun v => pure [v]) s = _
  rw [Attempt.bind_run, h]
  cases r <;> rfl

theorem evalOperands_two_run (hleft : left.eval mode env s = (r, s))
    (hright : right.eval mode env s = (r', s)) :
    evalOperands ((Args.ofList [left, right]).operands mode) env s =
      (r.bind fun v => r'.map fun w => [v, w], s) := by
  show (left.eval mode env >>= fun v =>
    evalOperands ((Args.ofList [right]).operands mode) env >>= fun vs => pure (v :: vs)) s = _
  rw [Attempt.bind_run, hleft]
  cases r with
  | error err => rfl
  | ok v =>
    show (evalOperands ((Args.ofList [right]).operands mode) env >>= _) s = _
    rw [Attempt.bind_run, evalOperands_one_run hright]
    cases r' <;> rfl

end

/-- What operands that leave the state as it is start is what each of them starts there. -/
theorem mem_visits_traceOperands {ops : List TracedOperand} {env : EnvId} {s : State} {v : Visit}
    (hsame : ∀ op ∈ ops, ((op.run env).run s).2 = s) (hv : v ∈ (traceOperands ops env).visits s) :
    ∃ op ∈ ops, v ∈ (op.run env).visits s := by
  induction ops with
  | nil => cases hv
  | cons op ops ih =>
    obtain ⟨hop, hrest⟩ := List.forall_mem_cons.1 hsame
    rw [traceOperands] at hv
    rcases hr : (op.run env).run s with ⟨err | w, s'⟩
    · rw [Traced.visits_bind_error hr] at hv
      exact ⟨op, List.mem_cons_self .., hv⟩
    · obtain rfl : s' = s := by
        rw [hr] at hop
        exact hop
      rw [Traced.visits_bind_ok hr, List.mem_append] at hv
      rcases hv with hv | hv
      · exact ⟨op, List.mem_cons_self .., hv⟩
      · have hlater : v ∈ (traceOperands ops env).visits s' := by
          rcases hrs : (traceOperands ops env).run s' with ⟨err | ws, s''⟩
          · rw [Traced.visits_bind_error hrs] at hv
            exact hv
          · rw [Traced.visits_bind_ok hrs, List.mem_append] at hv
            rcases hv with hv | hv
            · exact hv
            · cases hv
        obtain ⟨op', hmem, hv'⟩ := ih hrest hlater
        exact ⟨op', List.mem_cons_of_mem _ hmem, hv'⟩

namespace IntCode

variable {t u : IntCode} {env : EnvId} {s : State}

theorem Resolves.at_depth (h : t.Resolves env s) (d : Nat) :
    t.Resolves env { s with depth := d } := by
  induction t with
  | literal n => exact trivial
  | signed sign head operand ih =>
    exact ⟨congrArg Prod.fst (Head.resolve_at_depth h.1 d), ih h.2⟩
  | binary op head left right ihl ihr =>
    exact ⟨congrArg Prod.fst (Head.resolve_at_depth h.1 d), ihl h.2.1, ihr h.2.2⟩

theorem Resolves.of_mem_parts (h : t.Resolves env s) (hu : u ∈ t.parts) : u.Resolves env s := by
  induction t with
  | literal n =>
    obtain rfl := List.mem_singleton.1 hu
    exact h
  | signed sign head operand ih =>
    rcases List.mem_append.1 hu with hu | hu
    · exact ih h.2 hu
    · obtain rfl := List.mem_singleton.1 hu
      exact h
  | binary op head left right ihl ihr =>
    rcases List.mem_append.1 hu with hu | hu
    · rcases List.mem_append.1 hu with hu | hu
      · exact ihl h.2.1 hu
      · exact ihr h.2.2 hu
    · obtain rfl := List.mem_singleton.1 hu
      exact h

/-- By induction on the code. The operands give what they are to give one call deeper, where the
heads in them stand for the same. -/
theorem eval_gives (t : IntCode) (h : t.Resolves env s) :
    ∃ r, t.Gives r ∧ t.toExpr.eval .unlimited env s = (r, s) := by
  induction t generalizing s with
  | literal n =>
    refine ⟨_, .exact ?_, ?_⟩
    · rw [parts, firstOutside?_eq_none_iff, List.forall_mem_singleton]
      exact inRange_toInt n
    · rw [value, Int64.ofInt_toInt]
      rfl
  | signed sign head operand ih =>
    obtain ⟨r, hgives, hrun⟩ := ih (h.2.at_depth (s.depth + 1))
    refine ⟨_, ?_, Expr.eval_arithmetic_run h.1 (evalOperands_one_run hrun)⟩
    cases hgives with
    | refused hfirst hop => exact .refused (firstOutside?_append_of_some hfirst _) hop
    | exact hnone =>
      show Gives _ (sign.operator.apply [.int (.ofInt operand.value)])
      rw [sign.apply_int, (fits_of_none hnone).toInt_ofInt]
      exact gives_exactInt rfl hnone rfl
  | binary op head left right ihl ihr =>
    obtain ⟨r, hleft, hrun⟩ := ihl (h.2.1.at_depth (s.depth + 1))
    obtain ⟨r', hright, hrun'⟩ := ihr (h.2.2.at_depth (s.depth + 1))
    refine ⟨_, ?_, Expr.eval_arithmetic_run h.1 (evalOperands_two_run hrun hrun')⟩
    cases hleft with
    | refused hfirst hop =>
      refine .refused (firstOutside?_append_of_some ?_ _) hop
      exact firstOutside?_append_of_some hfirst _
    | exact hnone =>
      cases hright with
      | refused hfirst hop =>
        refine .refused (firstOutside?_append_of_some ?_ _) hop
        rw [firstOutside?_append_of_none hnone, hfirst]
      | exact hnone' =>
        show Gives _ (op.operator.apply [.int (.ofInt left.value), .int (.ofInt right.value)])
        rw [op.apply_ints, (fits_of_none hnone).toInt_ofInt, (fits_of_none hnone').toInt_ofInt]
        refine gives_exactInt rfl ?_ rfl
        rw [firstOutside?_append_of_none hnone, hnone']

theorem traced_ofList (mode : Mode) (ts : List IntCode) :
    (Args.ofList (ts.map toExpr)).traced mode =
      ts.map fun t => ⟨t.toExpr, t.toExpr.trace mode⟩ := by
  induction ts with
  | nil => rfl
  | cons t ts ih => rw [List.map_cons, Args.ofList, Args.traced, ih, List.map_cons]

/-- A call starts itself, and one call deeper what its operands start. -/
theorem mem_visits_call {head : Head} {op : Operator} {ts : List IntCode} {v : Visit}
    (hc : (head.resolve env s).1 = .ok (.builtin (.arithmetic op)))
    (hts : ∀ t ∈ ts, t.Resolves env s)
    (hv : v ∈ ((Expr.call head (.ofList (ts.map toExpr))).trace .unlimited env).visits s) :
    v = ⟨.call head (.ofList (ts.map toExpr)), env, s⟩ ∨
      ∃ t ∈ ts, v ∈ (t.toExpr.trace .unlimited env).visits { s with depth := s.depth + 1 } := by
  rw [Expr.visits_arithmetic hc, traced_ofList] at hv
  rcases List.mem_cons.1 hv with rfl | hv
  · exact Or.inl rfl
  · have hsame : ∀ op ∈ ts.map fun t => TracedOperand.mk t.toExpr (t.toExpr.trace .unlimited),
        ((op.run env).run { s with depth := s.depth + 1 }).2 = { s with depth := s.depth + 1 } := by
      rw [List.forall_mem_map]
      intro t ht
      obtain ⟨r, -, hrun⟩ := t.eval_gives ((hts t ht).at_depth (s.depth + 1))
      rw [Expr.run_trace, hrun]
    obtain ⟨op, hop, hstarted⟩ := mem_visits_traceOperands hsame hv
    obtain ⟨t, ht, rfl⟩ := List.mem_map.1 hop
    exact Or.inr ⟨t, ht, hstarted⟩

/-- Whatever is evaluated on the way is a part, in the same environment. -/
theorem visits_trace (t : IntCode) (h : t.Resolves env s) :
    ∀ v ∈ (t.toExpr.trace .unlimited env).visits s,
      ∃ u ∈ t.parts, ∃ d, v = ⟨u.toExpr, env, { s with depth := d }⟩ := by
  intro v hv
  induction t generalizing s with
  | literal n =>
    obtain rfl := List.mem_singleton.1 hv
    exact ⟨_, self_mem_parts _, s.depth, rfl⟩
  | signed sign head operand ih =>
    have hoperands : ∀ t ∈ [operand], t.Resolves env s := List.forall_mem_singleton.2 h.2
    rcases mem_visits_call h.1 hoperands hv with rfl | ⟨t, ht, hstarted⟩
    · exact ⟨_, self_mem_parts _, s.depth, rfl⟩
    · rw [List.mem_singleton.1 ht] at hstarted
      obtain ⟨u, hu, d, hvisit⟩ := ih (h.2.at_depth _) hstarted
      exact ⟨u, List.mem_append_left _ hu, d, hvisit⟩
  | binary op head left right ihl ihr =>
    have hoperands : ∀ t ∈ [left, right], t.Resolves env s :=
      List.forall_mem_cons.2 ⟨h.2.1, List.forall_mem_singleton.2 h.2.2⟩
    rcases mem_visits_call h.1 hoperands hv with rfl | ⟨t, ht, hstarted⟩
    · exact ⟨_, self_mem_parts _, s.depth, rfl⟩
    · rcases List.mem_pair.1 ht with ht | ht
      · rw [ht] at hstarted
        obtain ⟨u, hu, d, hvisit⟩ := ihl (h.2.1.at_depth _) hstarted
        exact ⟨u, List.mem_append_left _ (List.mem_append_left _ hu), d, hvisit⟩
      · rw [ht] at hstarted
        obtain ⟨u, hu, d, hvisit⟩ := ihr (h.2.2.at_depth _) hstarted
        exact ⟨u, List.mem_append_left _ (List.mem_append_right _ hu), d, hvisit⟩

/-- What the evaluation of code of integers comes to. The state stays as it is. -/
structure ExactOrRefused (t : IntCode) (env : EnvId) (s : State) : Prop where
  /-- If all parts fit, the result is the exact value. -/
  exact : (∀ u ∈ t.parts, u.Fits) →
    t.toExpr.eval .unlimited env s = (.ok (.int (.ofInt t.value)), s) ∧
      (Int64.ofInt t.value).toInt = t.value
  /-- If not, it is refused, with the operation of the first part that does not. -/
  refused : ¬ (∀ u ∈ t.parts, u.Fits) → ∃ u operation, firstOutside? t.parts = some u ∧
    u.operation? = some operation ∧
    t.toExpr.eval .unlimited env s = (.error (.integerOverflow operation), s)
  /-- Any evaluation on the way is one of a part. If it has a result, this is the exact value of
  the part. -/
  onTheWay : ∀ v ∈ (t.toExpr.trace .unlimited env).visits s, ∃ u ∈ t.parts,
    v.expr = u.toExpr ∧ v.env = env ∧
      ∀ w, (v.expr.eval .unlimited v.env v.state).1 = .ok w → ∃ n, w = .int n ∧ n.toInt = u.value

/-- Arithmetic of integers is exact, or it is refused. -/
theorem exactOrRefused_of_resolves (t : IntCode) (h : t.Resolves env s) :
    t.ExactOrRefused env s where
  exact := by
    intro hfits
    obtain ⟨r, hgives, hrun⟩ := t.eval_gives h
    cases hgives with
    | exact _ => exact ⟨hrun, (hfits t t.self_mem_parts).toInt_ofInt⟩
    | refused hfirst _ =>
      rw [firstOutside?_eq_none_iff.2 hfits] at hfirst
      cases hfirst
  refused := by
    intro hnot
    obtain ⟨r, hgives, hrun⟩ := t.eval_gives h
    cases hgives with
    | exact hnone => exact absurd (firstOutside?_eq_none_iff.1 hnone) hnot
    | @refused u operation hfirst hop => exact ⟨u, operation, hfirst, hop, hrun⟩
  onTheWay := by
    intro v hv
    obtain ⟨u, hu, d, rfl⟩ := t.visits_trace h v hv
    refine ⟨u, hu, rfl, rfl, fun w hw => ?_⟩
    obtain ⟨r, hgives, hrun⟩ := u.eval_gives ((h.of_mem_parts hu).at_depth d)
    rw [hrun] at hw
    cases hgives with
    | exact hnone =>
      cases hw
      exact ⟨_, rfl, (fits_of_none hnone).toInt_ofInt⟩
    | refused _ _ => cases hw

/-- The least integer is `-1` less the greatest one. Its negation is the first part that is out of
range, and the product and the sum after it are not named. -/
theorem exactOrRefused_of_resolves_initial :
    let minus := Head.symbol ⟨4⟩
    let least := binary .sub minus (signed .minus minus (literal 1)) (literal Int64.maxValue)
    let product := binary .mul (.inlined (.arithmetic .mul)) (literal Int64.maxValue) (literal 2)
    let sum := binary .add (.symbol ⟨3⟩) (signed .minus minus least) product
    least.Resolves .global .initial ∧ sum.Resolves .global .initial ∧
      least.ExactOrRefused .global .initial ∧ sum.ExactOrRefused .global .initial ∧
      (∀ u ∈ least.parts, u.Fits) ∧ least.value = Int64.minValue.toInt ∧
      firstOutside? sum.parts = some (signed .minus minus least) ∧
      ¬ product.Fits ∧ ¬ sum.Fits ∧
      least.toExpr.eval .unlimited .global .initial = (.ok (.int Int64.minValue), .initial) ∧
      sum.toExpr.eval .unlimited .global .initial =
        (.error (.integerOverflow "negation"), .initial) := by
  intro minus least product sum
  have hleast : least.Resolves .global .initial := ⟨rfl, ⟨rfl, trivial⟩, trivial⟩
  have hsum : sum.Resolves .global .initial := ⟨rfl, ⟨rfl, hleast⟩, rfl, trivial, trivial⟩
  exact ⟨hleast, hsum, exactOrRefused_of_resolves least hleast, exactOrRefused_of_resolves sum hsum,
    by decide, by decide, by decide, by decide, by decide, rfl, rfl⟩

end IntCode

end Overscope
