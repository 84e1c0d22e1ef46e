-- How deep an evaluation gets. A call in the code costs at most two levels: its own, and
-- the one of the base `~`, which evaluates a `~` call with the operator in its head. So the
-- depth is bounded by the nesting of calls in the code, whatever the names in it mean.
import Overscope.Proofs.Course
import Overscope.Proofs.Cut

namespace Overscope

/-! ## The height of code -/

mutual

/-- How deep calls and formula objects are nested in an expression. -/
def Expr.height : Expr → Nat
  | .const v => v.height
  | .symbol _ => 0
  | .call _ args => 1 + args.height
  | .missing => 0
termination_by structural e => e

/-- A formula object counts as a call. No other value has operands that are evaluated. -/
def Value.height : Value → Nat
  | .formula _ args _ _ => 1 + args.height
  | _ => 0
termination_by structural v => v

/-- The greatest height of an operand. -/
def Args.height : Args → Nat
  | .nil => 0
  | .cons e rest => max e.height rest.height
termination_by structural args => args

end

/-! ## States of one depth -/

/-- A state in which `d` calls are being evaluated. -/
structure State.AtDepth (d : Nat) (s : State) : Prop where
  settled : s.heap.Settled s.held
  depth : s.depth = d

theorem invariant_atDepth (d : Nat) : Invariant (State.AtDepth d) :=
  ⟨fun hs => hs.settled, fun hs hl => ⟨hl.settled hs.settled, hl.depth.trans hs.depth⟩⟩

theorem State.AtDepth.nested {d : Nat} {s : State} (hs : s.AtDepth d) :
    ({ s with depth := s.depth + 1 } : State).AtDepth (d + 1) :=
  ⟨hs.settled, by rw [hs.depth]⟩

theorem State.AtDepth.spliced {d : Nat} {s : State} (hs : s.AtDepth d)
    (overscope top target : EnvId) : (s.spliced overscope top target).AtDepth d :=
  ⟨settled_spliced hs.settled overscope top target, (s.depth_spliced ..).trans hs.depth⟩

theorem level_le {d n : Nat} {s : State} (hs : s.AtDepth d) (hn : d + 1 ≤ n) (e : Expr)
    (env : EnvId) : (Visit.mk e env s).level ≤ n := by
  unfold Visit.level
  split
  · rw [hs.depth]
    exact hn
  · exact Nat.zero_le n

/-- From depth `d` no call gets deeper than `n`. -/
def Shallow {α : Type} (d n : Nat) (x : Traced α) : Prop :=
  Course (State.AtDepth d) (fun _ => True) (·.level ≤ n) x

theorem ordinary_true : Ordinary fun _ => True := ⟨fun _ => trivial, fun _ => trivial⟩

/-- A visit of what is no call. -/
theorem shallow_leaf {d n : Nat} {e : Expr} (he : e.nests = false) {env : EnvId} {x : EvalM Value}
    (hback : PutsBack x) : Shallow d n (.evaluates e env (.silent x)) := by
  refine course_evaluates (course_silent hback fun _ _ _ => trivial) fun {s} _ => ?_
  rw [Visit.level, he]
  exact Nat.zero_le n

/-! ## Calls -/

namespace TracedSite

variable {site : TracedSite} {mode : Mode} {d n : Nat}

theorem shallow_toFormula (hback : ∀ op ∈ site.bare.operands, op.PutsBack) {env : EnvId}
    (hops : ∀ op ∈ site.operands, Shallow (d + 1) n (op.run env)) (hn : d + 1 ≤ n) :
    Shallow d n (site.toFormula mode env) :=
  course_toFormula (invariant_atDepth d) (invariant_atDepth (d + 1)) ordinary_true hback
    (fun hs => hs.nested) hops fun _ _ hs => level_le hs hn _ _

theorem shallow_evalQuosure {own : Option EnvId} {overscope top : EnvId}
    (hops : ∀ op ∈ site.operands, Shallow d n (op.run overscope)) :
    Shallow d n (site.evalQuosure own overscope top) := by
  refine course_evalQuosure (invariant_atDepth d) hops (fun _ _ => trivial)
    (course_silent (putsBack_targetScope own overscope) fun _ _ _ => trivial)
    fun target _ s hs => ?_
  split
  · trivial
  · exact hs.spliced overscope top target

/-- In an overscope the operands of a call are evaluated at the depth there, or one deeper. -/
theorem shallow_overridden (hback : ∀ op ∈ site.bare.operands, op.PutsBack)
    (hops : ∀ op ∈ site.operands, ∀ env d', d' ≤ d + 1 → Shallow d' n (op.run env))
    (hn : d + 1 ≤ n) (overscope top : EnvId) :
    Shallow d n (site.overridden mode overscope top) := by
  refine course_overridden ?_ fun _ _ own _ => ?_
  · exact shallow_toFormula hback (fun op hop => hops op hop _ _ (Nat.le_refl _)) hn
  · exact shallow_evalQuosure fun op hop => hops op hop _ _ (Nat.le_succ d)

theorem shallow_eval (hback : ∀ op ∈ site.bare.operands, op.PutsBack)
    (hops : ∀ op ∈ site.operands, ∀ env d', d' ≤ d + 2 → Shallow d' n (op.run env))
    (hn : d + 2 ≤ n) (env : EnvId) : Shallow d n (site.eval mode env) := by
  refine course_eval (invariant_atDepth (d + 1)) ordinary_true hback (fun hs => hs.nested)
    (fun p => ?_) fun t _ => ?_
  · exact course_apply (invariant_atDepth (d + 1)) ordinary_true hback
      (fun op hop => hops op hop env _ (Nat.le_succ (d + 1))) p
  · refine course_bind (invariant_atDepth (d + 1))
      (course_silent (putsBack_frames t) fun _ _ _ => trivial) fun frames => ?_
    exact shallow_overridden hback hops hn frames.1 frames.2

/-- A call as it is written, whose operands are within the bound from two levels deeper on. -/
theorem shallow_written {head : Head} {args : Args} {object : Option Formula}
    (hargs : ∀ d', d' + 2 * args.height ≤ n →
      ∀ op ∈ args.traced mode, ∀ env, Shallow d' n (op.run env))
    (hn : d + 2 * (1 + args.height) ≤ n) (e : Expr) (env : EnvId) :
    Shallow d n (.evaluates e env (eval mode ⟨head, args.traced mode, object⟩ env)) := by
  refine course_evaluates ?_ fun hs => level_le hs (by omega) _ _
  exact shallow_eval (args.putsBack_site mode head object)
    (fun op hop env d' hd => hargs d' (by omega) op hop env) (by omega) env

end TracedSite

/-! ## Code and values -/

mutual

/-- An evaluation gets at most twice as deep as its code is high. -/
theorem Expr.shallow_trace (mode : Mode) (e : Expr) {d n : Nat} (hn : d + 2 * e.height ≤ n)
    (env : EnvId) : Shallow d n (e.trace mode env) := by
  cases e with
  | const v => exact v.shallow_traceInlined mode hn env
  | symbol name => exact shallow_leaf rfl ((Expr.symbol name).putsBack_eval mode env)
  | call head args =>
    exact TracedSite.shallow_written (fun d' hd => args.shallow_traced mode hd) hn _ env
  | missing => exact shallow_leaf rfl (putsBack_pure _)

theorem Value.shallow_traceInlined (mode : Mode) (v : Value) {d n : Nat}
    (hn : d + 2 * v.height ≤ n) (env : EnvId) : Shallow d n (v.traceInlined mode env) := by
  cases v with
  | formula head args own kind =>
    exact TracedSite.shallow_written (fun d' hd => args.shallow_traced mode hd) hn _ env
  | _ => exact shallow_leaf rfl (putsBack_pure _)

theorem Args.shallow_traced (mode : Mode) (args : Args) {d n : Nat}
    (hn : d + 2 * args.height ≤ n) :
    ∀ op ∈ args.traced mode, ∀ env, Shallow d n (op.run env) := by
  cases args with
  | nil => exact nofun
  | cons e rest =>
    rw [Args.height] at hn
    rw [Args.traced, List.forall_mem_cons]
    exact ⟨e.shallow_trace mode (by omega), rest.shallow_traced mode (by omega)⟩

end

/-- The call that a value stands for is as high as the value is as code. -/
theorem Value.exists_of_tracedSite? {mode : Mode} {v : Value} {site : TracedSite}
    (h : v.tracedSite? mode = some site) : ∃ head, ∃ args : Args, ∃ object,
      site = ⟨head, args.traced mode, object⟩ ∧ v.toExpr.height = 1 + args.height := by
  cases v with
  | formula head args own kind =>
    cases h
    exact ⟨head, args, _, rfl, rfl⟩
  | code e =>
    cases e with
    | call head args =>
      cases h
      exact ⟨head, args, _, rfl, rfl⟩
    | _ => cases h
  | _ => cases h

theorem Value.shallow_traceTilde (mode : Mode) (v : Value) {d n : Nat}
    (hn : d + 2 * v.toExpr.height ≤ n) (overscope top : EnvId) :
    Shallow d n (v.traceTilde mode overscope top) := by
  unfold Value.traceTilde
  split
  · next site hsite =>
    obtain ⟨head, args, object, rfl, hheight⟩ := Value.exists_of_tracedSite? hsite
    exact TracedSite.shallow_overridden (args.putsBack_site mode head _)
      (fun op hop env d' hd => args.shallow_traced mode (by omega) op hop env) (by omega) _ _
  · exact course_silent (putsBack_fail _) fun _ _ _ => trivial

theorem Value.shallow_traceFormula (mode : Mode) (v : Value) {d n : Nat}
    (hn : d + 2 * v.toExpr.height ≤ n) (env : EnvId) :
    Shallow d n (v.traceFormula mode env) := by
  unfold Value.traceFormula
  split
  · next site hsite =>
    obtain ⟨head, args, object, rfl, hheight⟩ := Value.exists_of_tracedSite? hsite
    exact TracedSite.shallow_toFormula (args.putsBack_site mode head _)
      (fun op hop => args.shallow_traced mode (by omega) op hop env) (by omega)
  · exact course_silent (putsBack_fail _) fun _ _ _ => trivial

end Overscope
