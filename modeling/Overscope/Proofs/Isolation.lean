-- A quosure with a scope of its own does not see the scope that it is evaluated
-- from. That scope is in two slots, the parent of the top frame and the `.env` of a
-- data mask, and the quosure overwrites both before it looks at them.
import Overscope.Proofs.Refinement

namespace Overscope

/-! ## Views that agree outside of the scope in force -/

namespace View

variable {v w : View} {overscope top : EnvId}

/-- The views agree in all but the slots that splicing overwrites. -/
structure AgreeOutside (overscope top : EnvId) (v w : View) : Prop where
  size : v.size = w.size
  isLive : ∀ e, v.isLive e = w.isLive e
  parent : ∀ e, ¬(top = e ∧ v.isLive e) → v.parent? e = w.parent? e
  binding : ∀ e name, ¬(v.isMask overscope ∧ overscope = e ∧ v.isLive e ∧ Name.env = name) →
    v.local? e name = w.local? e name

/-- The flag of a data mask is none of the slots. -/
theorem AgreeOutside.isMask (h : AgreeOutside overscope top v w) (e : EnvId) :
    v.isMask e = w.isMask e := by
  unfold View.isMask
  rw [h.binding e .maskFlag fun hc => absurd hc.2.2.2 (by decide)]

/-- Whether the top frame is an ancestor does not depend on where it goes on. -/
theorem AgreeOutside.hasAncestor (h : AgreeOutside overscope top v w) (e : EnvId) :
    v.hasAncestor e top = w.hasAncestor e top := by
  have hp : ∀ f, f ≠ top → v.parent? f = w.parent? f := fun f hf =>
    h.parent f fun hc => hf hc.1.symm
  rw [Bool.eq_iff_iff]
  simp only [View.hasAncestor, chain, List.contains_iff_mem, h.size]
  exact mem_chainUpTo_congr hp (w.size + 1) e

/-- A splice leaves no trace of the scope that was in force. -/
theorem AgreeOutside.splice (h : AgreeOutside overscope top v w) (target : EnvId) :
    v.splice overscope top target = w.splice overscope top target := by
  apply View.ext
  · rw [size_splice, size_splice, h.size]
  · funext e
    rw [isLive_splice, isLive_splice, h.isLive e]
  · funext e
    rw [parent?_splice, parent?_splice, ← h.isLive e]
    split
    · rfl
    · next hc => exact h.parent e hc
  · funext e name
    rw [local?_splice, local?_splice, ← h.isMask overscope, ← h.isLive e]
    split
    · rfl
    · next hc => exact h.binding e name hc

theorem AgreeOutside.trans {u : View} (h : AgreeOutside overscope top u v)
    (h' : AgreeOutside overscope top v w) : AgreeOutside overscope top u w where
  size := h.size.trans h'.size
  isLive e := (h.isLive e).trans (h'.isLive e)
  parent e hc := (h.parent e hc).trans (h'.parent e (by rwa [← h.isLive e]))
  binding e name hc := by
    rw [h.binding e name hc]
    exact h'.binding e name (by rwa [← h.isMask overscope, ← h.isLive e])

/-- A view agrees with itself under a splice. -/
theorem agreeOutside_splice (v : View) (overscope top target : EnvId) :
    AgreeOutside overscope top v (v.splice overscope top target) where
  size := (size_splice v overscope top target).symm
  isLive e := (isLive_splice v overscope top target e).symm
  parent e hc := by rw [parent?_splice, if_neg hc]
  binding e name hc := by rw [local?_splice, if_neg hc]

end View

/-! ## Quosures that do not see it -/

variable {overscope top : EnvId}

/-- What is no symbol and no call is the same in every view. -/
theorem Expr.evalIn_of_not_isSymbolic {e : Expr} (he : e.isSymbolic = false) (v w : View)
    (d : Option Allowance) (env : EnvId) : e.evalIn v d env = e.evalIn w d env := by
  cases e with
  | const c =>
    cases c with
    | formula head args own kind => cases he
    | _ => rfl
  | symbol name => cases he
  | call head args => cases he
  | missing => rfl

theorem Args.run_of_mem_operandsIn {args : Args} {op : ViewOperand} (hop : op ∈ args.operandsIn) :
    op.run = op.code.evalIn := by
  cases args with
  | nil => cases hop
  | cons e rest =>
    rcases List.mem_cons.1 hop with rfl | hrest
    · rfl
    · exact run_of_mem_operandsIn hrest

/-- With a scope of its own a quosure does the same in views that agree. -/
theorem quosureIn_congr {v w : View} (h : v.AgreeOutside overscope top w) {site : ViewSite}
    {args : Args} (hargs : site.operands = args.operandsIn) (own : EnvId) (d : Option Allowance) :
    site.quosureIn (some own) v d overscope top = site.quosureIn (some own) w d overscope top := by
  unfold ViewSite.quosureIn
  rcases hlast : site.operands.getLast? with _ | rhs
  · rfl
  · have hmem : rhs ∈ args.operandsIn := hargs ▸ List.mem_of_getLast? hlast
    simp only [h.hasAncestor, h.splice, targetIn]
    by_cases hsym : rhs.code.isSymbolic
    · simp only [hsym, Bool.not_true, Bool.false_eq_true, if_false]
    · rw [Args.run_of_mem_operandsIn hmem,
        Expr.evalIn_of_not_isSymbolic (Bool.eq_false_iff.2 hsym) v w]

theorem evalTildeIn_congr {v w : View} (h : v.AgreeOutside overscope top w) (head : Head)
    (args : Args) (own : EnvId) (d : Option Allowance) :
    (Value.formula head args (some own) .quosure).evalTildeIn v d overscope top =
      (Value.formula head args (some own) .quosure).evalTildeIn w d overscope top := by
  show ViewSite.quosureIn ⟨head, args.operandsIn, _⟩ _ v d overscope top = _
  exact quosureIn_congr h rfl own d

/-! ## Masks that answer -/

namespace View

variable {v w : View}

/-- The own `~` of an overscope is the override for itself and its top frame. -/
structure Answers (overscope top : EnvId) (v : View) : Prop where
  tilde : v.local? overscope .tilde = some (.override ⟨overscope, top⟩)
  isLive : v.isLive overscope ∧ v.isLive top

/-- What a mask has to be for its quosures: it answers, and its top frame is on its chain. -/
structure Intact (overscope top : EnvId) (v : View) : Prop extends Answers overscope top v where
  onChain : v.hasAncestor overscope top

/-- It answers whatever scope is in force. -/
theorem Answers.of_agreeOutside (h : v.Answers overscope top)
    (hagree : AgreeOutside overscope top v w) : w.Answers overscope top where
  tilde := by
    rw [← hagree.binding overscope .tilde fun hc => absurd hc.2.2.2 (by decide)]
    exact h.tilde
  isLive := by
    rw [← hagree.isLive, ← hagree.isLive]
    exact h.isLive

/-- The head `~` finds the override of such a mask. -/
theorem Answers.resolveIn (h : v.Answers overscope top) :
    (Head.symbol .tilde).resolveIn v overscope = pure (.override ⟨overscope, top⟩) := by
  have hfind : v.resolveWhere? overscope .tilde Value.isCallable =
      some (.override ⟨overscope, top⟩) := by
    unfold resolveWhere? chain chainUpTo
    rw [List.findSome?_cons, h.tilde]
    rfl
  unfold Head.resolveIn
  simp only [hfind]
  rfl

end View

/-- A mask does with a quosure that is evaluated in it what it does with it outright. -/
theorem evalInlinedIn_quosure {v : View} (h : v.Answers overscope top) (args : Args)
    (own : Option EnvId) :
    (Value.formula (.symbol .tilde) args own .quosure).evalInlinedIn v none overscope =
      (Value.formula (.symbol .tilde) args own .quosure).evalTildeIn v none overscope top := by
  show ViewSite.evalIn _ v none overscope = _
  unfold ViewSite.evalIn deeper
  simp only [h.resolveIn]
  show (if v.isLive overscope && v.isLive top then _ else _) = _
  rw [h.isLive.1, h.isLive.2]
  rfl

/-! ## States -/

/-- The scope graphs agree in who is alive, in all parents but that of `top`, and in
all bindings but the `.env` of the overscope, where that is a data mask. -/
structure Heap.AgreeOutside (overscope top : EnvId) (h h' : Heap) : Prop where
  isLive : ∀ e, h.isLive e = h'.isLive e
  parent : ∀ e, e ≠ top → h.parent? e = h'.parent? e
  binding : ∀ e name, ¬(h.isMask overscope ∧ e = overscope ∧ name = .env) →
    h.local? e name = h'.local? e name

namespace Heap

/-- A dead frame has no slots in which the graphs could differ. -/
theorem AgreeOutside.view {h h' : Heap} (hagree : h.AgreeOutside overscope top h') :
    h.view.AgreeOutside overscope top h'.view where
  size := congrArg List.length (liveFrames_congr hagree.isLive)
  isLive := hagree.isLive
  parent e hc := by
    by_cases he : e = top
    · have hl : ¬ h.isLive e := fun hl => hc ⟨he.symm, hl⟩
      have hl' : ¬ h'.isLive e := by rwa [← hagree.isLive e]
      exact (parent?_of_not_isLive hl).trans (parent?_of_not_isLive hl').symm
    · exact hagree.parent e he
  binding e name hc := by
    by_cases hl : h.isLive e
    · exact hagree.binding e name fun ⟨hm, he, hn⟩ => hc ⟨hm, he.symm, hl, hn.symm⟩
    · have hl' : ¬ h'.isLive e := by rwa [← hagree.isLive e]
      exact (local?_of_not_isLive hl name).trans (local?_of_not_isLive hl' name).symm

/-- Writing the two slots of a data mask. -/
theorem agreeOutside_setParent_bind {h : Heap} {overscope : EnvId} (hm : h.isMask overscope)
    (top : EnvId) (w : Value) (p : Option EnvId) :
    h.AgreeOutside overscope top ((h.bind overscope .env w).setParent top p) where
  isLive e := by rw [setParent, isLive_modify, bind, isLive_modify]
  parent e he := by rw [parent?_setParent, if_neg (Ne.symm he), parent?_bind]
  binding e name hc := by
    rw [local?_setParent, local?_bind, if_neg]
    rintro ⟨he, -, hn⟩
    exact hc ⟨hm, he.symm, hn.symm⟩

end Heap

/-- Without a limit on the depth code that is a quosure gives in the mask what the quosure gives
outright. -/
theorem eval_const_quosure {s : State} (hs : s.Sound) (h : s.heap.view.Answers overscope top)
    (args : Args) (own : Option EnvId) :
    (Expr.const (.formula (.symbol .tilde) args own .quosure)).eval .unlimited overscope s =
      (Value.formula (.symbol .tilde) args own .quosure).evalTilde .unlimited overscope top s := by
  rw [Expr.eval_eq_onMemo hs, Value.evalTilde_eq_onMemo hs]
  exact congrArg s.onMemo (evalInlinedIn_quosure h args own)

/-- With a scope of its own a quosure does the same in states that agree. -/
theorem evalTilde_of_agreeOutside {s s' : State} (hs : s.Sound) (hs' : s'.Sound)
    (hmemo : s.memo = s'.memo) {mode : Mode}
    (hallow : mode.allowance s.depth = mode.allowance s'.depth)
    (hagree : s.heap.view.AgreeOutside overscope top s'.heap.view) (head : Head) (args : Args)
    (own : EnvId) :
    ((Value.formula head args (some own) .quosure).evalTilde mode overscope top s').1 =
      ((Value.formula head args (some own) .quosure).evalTilde mode overscope top s).1 := by
  rw [Value.evalTilde_eq_onMemo hs, Value.evalTilde_eq_onMemo hs']
  simp only [State.onMemo, hmemo, hallow, evalTildeIn_congr hagree]

end Overscope
