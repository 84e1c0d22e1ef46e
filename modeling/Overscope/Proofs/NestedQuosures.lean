-- Quosures inside of quosures of one mask. Whatever is evaluated in the mask, it is evaluated in
-- states that differ from the one at the start in the scope in force alone, and in what was
-- learned. That scope is what a quosure with a scope of its own does not see, so it gives at any
-- depth what it gives at the start.
import Overscope.Proofs.InForce
import Overscope.Proofs.Isolation
import Overscope.Proofs.Order
import Overscope.Proofs.Preservation
import Overscope.Proofs.Splicing

open Relation

namespace Overscope

/-! ## Other masks -/

/-- Overrides of other masks are bound to `~` alone. So code that is evaluated in the overscope,
which has a `~` of its own, calls no other mask. -/
def Heap.OthersOverrideTilde (overscope top : EnvId) (h : Heap) : Prop :=
  ∀ e name o, h.local? e name = some (.override o) → name = .tilde ∨ o = ⟨overscope, top⟩

/-! ## States on the way -/

/-- An evaluation in the mask that started in `s₀` can come to the state `s`. Another scope may be
in force there, and something may have been learned. -/
structure State.GoesOnFrom (s₀ : State) (overscope top : EnvId) (s : State) : Prop where
  sound : s.Sound
  agree : s₀.heap.view.AgreeOutside overscope top s.heap.view
  answers : s.heap.view.Answers overscope top
  others : s.heap.OthersOverrideTilde overscope top
  learned : ReflTransGen (Memo.Gains s₀.heap.boundTilde) s₀.memo s.memo

namespace State.GoesOnFrom

variable {s₀ s : State} {overscope top : EnvId}

theorem start (hs : s.Sound) (ha : s.heap.view.Answers overscope top)
    (ho : s.heap.OthersOverrideTilde overscope top) : s.GoesOnFrom overscope top s :=
  ⟨hs, ⟨rfl, fun _ => rfl, fun _ _ => rfl, fun _ _ _ => rfl⟩, ha, ho, .refl⟩

/-- Base binds `~` to what it did. -/
theorem boundTilde_eq (hs : s₀.GoesOnFrom overscope top s) :
    s₀.heap.boundTilde = s.heap.boundTilde :=
  hs.agree.binding .base .tilde fun hc => absurd hc.2.2.2 (by decide)

theorem learns {s' : State} (hs : s₀.GoesOnFrom overscope top s) (hl : s.LearnsTo s') :
    s₀.GoesOnFrom overscope top s' where
  sound := hl.sound hs.sound
  agree := by
    rw [hl.heap]
    exact hs.agree
  answers := by
    rw [hl.heap]
    exact hs.answers
  others := by
    rw [hl.heap]
    exact hs.others
  learned := by
    have hmemo := hl.memo
    rw [← hs.boundTilde_eq] at hmemo
    exact hs.learned.trans hmemo

theorem nested (hs : s₀.GoesOnFrom overscope top s) :
    s₀.GoesOnFrom overscope top { s with depth := s.depth + 1 } :=
  ⟨⟨hs.sound.acyclic, hs.sound.settled⟩, hs.agree, hs.answers, hs.others, hs.learned⟩

/-- A splice of the mask writes where the states may differ anyway, and binds no override. -/
theorem spliced (hs : s₀.GoesOnFrom overscope top s) {target : EnvId}
    (hoff : s.heap.hasAncestor target top = false) :
    s₀.GoesOnFrom overscope top (s.spliced overscope top target) := by
  have hagree := View.agreeOutside_splice s.heap.view overscope top target
  rw [← State.view_spliced] at hagree
  refine ⟨State.sound_spliced hs.sound (Bool.eq_false_iff.1 hoff), hs.agree.trans hagree,
    hs.answers.of_agreeOutside hagree, ?_, ?_⟩
  · intro e name o hlocal
    rw [State.local?_spliced, Heap.spliceLocal?] at hlocal
    split at hlocal
    · cases hlocal
    · exact hs.others e name o hlocal
  · rw [State.memo_spliced]
    exact hs.learned

/-- No head means the override of another mask. -/
theorem eq_of_resolve (hs : s₀.GoesOnFrom overscope top s) {head : Head} {o : Override}
    (ho : (head.resolve overscope s).1 = .ok (.override o)) : o = ⟨overscope, top⟩ := by
  obtain ⟨e, name, rfl, hlocal⟩ := Head.exists_local?_of_resolve ho
  rcases hs.others e name o hlocal with rfl | heq
  · rw [resolve_tilde_of_override hs.answers.tilde] at ho
    cases ho
    rfl
  · exact heq

end State.GoesOnFrom

/-- Evaluation in the mask stays there. -/
theorem preserved_goesOnFrom (s₀ : State) (overscope top : EnvId) :
    Preserved (· = overscope) (s₀.GoesOnFrom overscope top) (· = ⟨overscope, top⟩)
      fun _ => True where
  settled hs := hs.sound.settled
  learns hs hl := hs.learns hl
  nested hs := hs.nested
  override hs henv ho := by
    rw [henv] at ho
    exact hs.eq_of_resolve ho
  mask ho := by rw [ho]
  scope _ _ := trivial
  spliced hs ho _ hoff := by
    cases ho
    exact hs.spliced hoff

/-! ## Quosures on the way -/

/-- The visit is one in the overscope, and at it the quosure gives what it gives in the state
`s`. -/
structure Visit.Isolates (s : State) (overscope top : EnvId) (q : Formula) (v : Visit) :
    Prop where
  env : v.env = overscope
  /-- It gives the same there with what was learned since then. -/
  evalTilde : (q.toValue.evalTilde .unlimited overscope top v.state).1 =
    (q.toValue.evalTilde .unlimited overscope top (s.withMemo v.state.memo)).1
  /-- What was learned does not matter if all names were issued before. -/
  issued : Name.env.index < s.interner.size → s.interner.Lawful →
    s.heap.Issued s.interner.size → q.toValue.Issued s.interner.size →
    (q.toValue.evalTilde .unlimited overscope top v.state).1 =
      (q.toValue.evalTilde .unlimited overscope top s).1
  /-- That is also what it gives as code, with the `~` of the mask in its head. -/
  code : q.head = .symbol .tilde →
    (Expr.const q.toValue).eval .unlimited v.env v.state =
      q.toValue.evalTilde .unlimited overscope top v.state

theorem Visit.isolates {s : State} {overscope top : EnvId} {v : Visit} (henv : v.env = overscope)
    (hv : s.GoesOnFrom overscope top v.state) (hs : s.Sound) (head : Head) (args : Args)
    (own : EnvId) : v.Isolates s overscope top ⟨head, args, some own, .quosure⟩ := by
  have hsame : ((Value.formula head args (some own) .quosure).evalTilde .unlimited overscope top
      v.state).1 = ((Value.formula head args (some own) .quosure).evalTilde .unlimited overscope
      top (s.withMemo v.state.memo)).1 :=
    evalTilde_of_agreeOutside (s := s.withMemo v.state.memo) (State.sound_withMemo hs _) hv.sound
      rfl rfl hv.agree head args own
  refine ⟨henv, hsame, fun hb hlaw hheap hq => hsame.trans ?_, fun hhead => ?_⟩
  · have halike : Memo.Alike s.interner.size s.heap.boundTilde v.state.memo s.memo :=
      (Memo.Alike.refl hlaw (Nat.le_refl _)).gains hv.learned .refl
    exact (Value.steady_evalTilde .unlimited hb hq overscope top s hs.settled hheap _ _ halike).1
  · obtain rfl : head = .symbol .tilde := hhead
    rw [henv]
    exact eval_const_quosure hv.sound hv.answers args (some own)

/-- A quosure with a scope of its own does not see the scope that it is evaluated from. In two
states that differ at most in that scope the outcome is the same, value or error. So without a
limit on the depth it is the same wherever the mask evaluates something, at any depth inside of
other quosures whatever their scopes are, as outright at the start. -/
theorem evalTilde_isolated (head : Head) (args : Args) (own overscope top : EnvId) :
    (∀ (mode : Mode) (s s' : State), s.Sound → s'.Sound → s.memo = s'.memo →
      (mode = .unlimited ∨ s.depth = s'.depth) → s.heap.AgreeOutside overscope top s'.heap →
      ((Value.formula head args (some own) .quosure).evalTilde mode overscope top s').1 =
        ((Value.formula head args (some own) .quosure).evalTilde mode overscope top s).1) ∧
    ∀ s : State, s.Sound → s.heap.view.Answers overscope top →
      s.heap.OthersOverrideTilde overscope top →
      (∀ outer : Value, ∀ v ∈ (outer.traceTilde .unlimited overscope top).visits s,
        v.Isolates s overscope top ⟨head, args, some own, .quosure⟩) ∧
      ∀ e : Expr, ∀ v ∈ (e.trace .unlimited overscope).visits s,
        v.Isolates s overscope top ⟨head, args, some own, .quosure⟩ := by
  refine ⟨?_, ?_⟩
  · intro mode s s' hs hs' hmemo hmode hagree
    have hallow : mode.allowance s.depth = mode.allowance s'.depth := by
      rcases hmode with rfl | hdepth
      · rfl
      · rw [hdepth]
    exact evalTilde_of_agreeOutside hs hs' hmemo hallow hagree.view head args own
  · intro s hs ha ho
    have hI := preserved_goesOnFrom s overscope top
    have hstart := State.GoesOnFrom.start hs ha ho
    constructor
    · intro outer v hv
      have hkept := (outer.preserves_traceTilde hI .unlimited (fun _ _ => trivial) rfl).visits
        hstart v hv
      exact Visit.isolates hkept.1 hkept.2 hs head args own
    · intro e v hv
      have hkept := (e.preserves_trace hI .unlimited (fun _ _ => trivial) rfl).visits hstart v hv
      exact Visit.isolates hkept.1 hkept.2 hs head args own

/-- The state in which the sample mask goes on in the global environment instead. -/
def State.sampleMoved : State :=
  { State.sample with
    heap := (Heap.sample.bind ⟨4⟩ .env (.env .global)).setParent ⟨3⟩ (some .global)
    held := [.base, .global, ⟨2⟩, ⟨4⟩] }

/-- The quosure of the sum of `x` and `y` where `x = 30`. -/
def Formula.sampleSum : Formula :=
  .quosure (.call (.inlined (.arithmetic .add)) (.ofList [.symbol ⟨12⟩, .symbol ⟨13⟩])) (some ⟨2⟩)

/-- A quosure of the global environment, where `x = 2`, that adds `x` to that sum. -/
def Formula.sampleAround : Formula :=
  .quosure (.call (.inlined (.arithmetic .add))
    (.ofList [.symbol ⟨12⟩, .const Formula.sampleSum.toValue])) (some .global)

/-- The sum is the same under both scopes, and as an operand of the quosure around it, where it
is evaluated while the global environment is the scope in force. -/
theorem evalTilde_isolated_sample :
    (Formula.sampleSum.toValue.evalTilde (.restricted 1) ⟨4⟩ ⟨3⟩ .sampleMoved).1 =
        (Formula.sampleSum.toValue.evalTilde (.restricted 1) ⟨4⟩ ⟨3⟩ .sample).1 ∧
      (∀ v ∈ (Formula.sampleAround.toValue.traceTilde .unlimited ⟨4⟩ ⟨3⟩).visits .sample,
        v.Isolates .sample ⟨4⟩ ⟨3⟩ Formula.sampleSum) ∧
      (∀ v ∈ ((Expr.const Formula.sampleAround.toValue).trace .unlimited ⟨4⟩).visits .sample,
        v.Isolates .sample ⟨4⟩ ⟨3⟩ Formula.sampleSum) ∧
      ((Formula.sampleAround.toValue.traceTilde .unlimited ⟨4⟩ ⟨3⟩).visits .sample).any (fun v =>
        v.expr == .const Formula.sampleSum.toValue &&
          v.state.heap.parent? ⟨3⟩ == some .global) ∧
      (Formula.sampleSum.toValue.evalTilde .unlimited ⟨4⟩ ⟨3⟩ .sample).1.toOption.map
        (· == .int 35) = some true ∧
      (Formula.sampleAround.toValue.evalTilde .unlimited ⟨4⟩ ⟨3⟩ .sample).1.toOption.map
        (· == .int 37) = some true := by
  have hmoved : State.sampleMoved.Sound := ⟨by decide, by decide⟩
  have hagree : State.sample.heap.AgreeOutside ⟨4⟩ ⟨3⟩ State.sampleMoved.heap :=
    Heap.agreeOutside_setParent_bind (by decide) _ _ _
  have hanswers : State.sample.heap.view.Answers ⟨4⟩ ⟨3⟩ := ⟨rfl, by decide, by decide⟩
  have honly : State.sample.heap.OnlyTildeOverridden := by decide
  have hothers : State.sample.heap.OthersOverrideTilde ⟨4⟩ ⟨3⟩ := fun e name o hlocal =>
    Or.inl (honly e name (.override o) hlocal rfl)
  obtain ⟨halone, hinside⟩ :=
    evalTilde_isolated (.symbol .tilde) Formula.sampleSum.args ⟨2⟩ ⟨4⟩ ⟨3⟩
  obtain ⟨hquosure, hcode⟩ := hinside .sample State.sound_sample hanswers hothers
  refine ⟨?_, hquosure _, hcode _, by decide +kernel, by decide +kernel, by decide +kernel⟩
  exact halone _ _ _ State.sound_sample hmoved rfl (Or.inr rfl) hagree

end Overscope
