-- Requests to one interpreter, one after the other. All that a request leaves behind is
-- what it learned, and none of that can be seen by code whose names were issued before.
-- So the answer to a request is the one it would have got as the first.
import Overscope.Proofs.Steady

open Relation

namespace Overscope

/-! ## Requests -/

/-- What an interpreter can be asked to evaluate: an expression in an environment, a `~`
call in an overscope, or a `~` call as by the base `~`. -/
inductive Request where
  | eval (e : Expr) (env : EnvId)
  | evalTilde (v : Value) (overscope top : EnvId)
  | toFormula (v : Value) (env : EnvId)

namespace Request

def run (mode : Mode) : Request → EvalM Value
  | .eval e env => e.eval mode env
  | .evalTilde v overscope top => v.evalTilde mode overscope top
  | .toFormula v env => v.toFormula mode env

/-- All names in the code are among the first `b`. -/
def Issued (b : Nat) : Request → Prop
  | .eval e _ => e.Issued b
  | .evalTilde v _ _ => v.Issued b
  | .toFormula v _ => v.Issued b

instance (b : Nat) : ∀ r : Request, Decidable (r.Issued b)
  | .eval e _ => e.decIssued b
  | .evalTilde v _ _ => v.decIssued b
  | .toFormula v _ => v.decIssued b

end Request

namespace State

/-- The answer to a request that is made in this state. -/
def answer (mode : Mode) (s : State) (r : Request) : Except EvalError Value := (r.run mode s).1

/-- The answers to requests that are made one after the other, each in the state that the
one before left. -/
def answers (mode : Mode) : State → List Request → List (Except EvalError Value)
  | _, [] => []
  | s, r :: rs => s.answer mode r :: (r.run mode s).2.answers mode rs

end State

/-! ## One request -/

variable {b : Nat}

theorem Value.steady_callSite? {mode : Mode} (hb : Name.env.index < b) {v : Value}
    (hv : v.Issued b) {site : CallSite} (hsite : v.callSite? mode = some site) :
    site.Steady b := by
  unfold Value.callSite? at hsite
  split at hsite
  · next head args own kind =>
    obtain rfl := Option.some.inj hsite
    refine ⟨hv.1, ?_, Args.steady_operands mode hb hv.2⟩
    intro f hf
    cases hf
    exact hv
  · next head args =>
    obtain rfl := Option.some.inj hsite
    refine ⟨hv.1, ?_, Args.steady_operands mode hb hv.2⟩
    intro f hf
    cases hf
  · cases hsite

theorem Value.steady_evalTilde (mode : Mode) (hb : Name.env.index < b) {v : Value}
    (hv : v.Issued b) (overscope top : EnvId) :
    Steady b (Value.Issued b) (v.evalTilde mode overscope top) := by
  unfold Value.evalTilde
  split
  · next hsite =>
    exact CallSite.steady_overridden (Value.steady_callSite? hb hv hsite) hb mode overscope top
  · exact steady_fail _

theorem Value.steady_toFormula (mode : Mode) (hb : Name.env.index < b) {v : Value}
    (hv : v.Issued b) (env : EnvId) : Steady b (Value.Issued b) (v.toFormula mode env) := by
  unfold Value.toFormula
  split
  · next hsite => exact CallSite.steady_toFormula (Value.steady_callSite? hb hv hsite) hb mode env
  · exact steady_fail _

namespace Request

theorem putsBack_run (mode : Mode) (r : Request) : PutsBack (r.run mode) := by
  cases r with
  | eval e env => exact e.putsBack_eval mode env
  | evalTilde v overscope top => exact v.putsBack_evalTilde mode overscope top
  | toFormula v env => exact v.putsBack_toFormula mode env

theorem steady_run (mode : Mode) (hb : Name.env.index < b) {r : Request} (hr : r.Issued b) :
    Steady b (Value.Issued b) (r.run mode) := by
  cases r with
  | eval e env => exact Expr.steady_eval mode hb hr env
  | evalTilde v overscope top => exact Value.steady_evalTilde mode hb hr overscope top
  | toFormula v env => exact Value.steady_toFormula mode hb hr env

end Request

/-! ## One after the other -/

namespace State

variable {s t : State}

/-- What was learned in between does not change an answer. -/
theorem answer_of_learnsTo (mode : Mode) (hs : s.heap.Settled s.held) (hlaw : s.interner.Lawful)
    (hsize : b ≤ s.interner.size) (hb : Name.env.index < b) (hheap : s.heap.Issued b)
    (ht : s.LearnsTo t) {r : Request} (hr : r.Issued b) : t.answer mode r = s.answer mode r := by
  have halike : Memo.Alike b s.heap.boundTilde s.memo t.memo :=
    (Memo.Alike.refl hlaw hsize).gains .refl ht.memo
  have hsame := (r.steady_run mode hb hr s hs hheap s.memo t.memo halike).1
  unfold answer
  rw [ht.eq_withMemo]
  exact hsame.symm

/-- Requests get the answers that each of them would have got in an earlier state: the
induction is on the requests, and the state moves on by what each of them learns. -/
theorem answers_of_learnsTo (mode : Mode) (hs : s.heap.Settled s.held) (hlaw : s.interner.Lawful)
    (hsize : b ≤ s.interner.size) (hb : Name.env.index < b) (hheap : s.heap.Issued b)
    (rs : List Request) (hrs : ∀ r ∈ rs, r.Issued b) (ht : s.LearnsTo t) :
    t.answers mode rs = rs.map (s.answer mode) := by
  induction rs generalizing t with
  | nil => rfl
  | cons r rs ih =>
    have hr : r.Issued b := hrs r (List.mem_cons_self ..)
    have hrest : ∀ r' ∈ rs, r'.Issued b := fun r' h => hrs r' (List.mem_cons_of_mem _ h)
    have hnext : s.LearnsTo (r.run mode t).2 := ht.trans (r.putsBack_run mode t (ht.settled hs))
    unfold answers
    rw [answer_of_learnsTo mode hs hlaw hsize hb hheap ht hr, ih hrest hnext, List.map_cons]

end State

/-- Requests whose names were issued before get the same answers in any order, however
often each is made and whichever of the others are made. One after the other, each gets
the answer that it gets on its own, so that two runs give one request the same answer,
wherever in them it stands. -/
theorem answers_orderIndependent (mode : Mode) {s : State} (hs : s.Sound)
    (hlaw : s.interner.Lawful) (hreserved : Interner.reserved.length ≤ s.interner.size)
    (hheap : s.heap.Issued s.interner.size) :
    (∀ rs : List Request, (∀ r ∈ rs, r.Issued s.interner.size) →
      s.answers mode rs = rs.map (s.answer mode)) ∧
    ∀ rs rs' : List Request, (∀ r ∈ rs, r.Issued s.interner.size) →
      (∀ r ∈ rs', r.Issued s.interner.size) → ∀ i j : Nat, rs[i]? = rs'[j]? →
        (s.answers mode rs)[i]? = (s.answers mode rs')[j]? := by
  have hb : Name.env.index < s.interner.size := Nat.lt_of_lt_of_le (by decide) hreserved
  have halone : ∀ rs : List Request, (∀ r ∈ rs, r.Issued s.interner.size) →
      s.answers mode rs = rs.map (s.answer mode) := by
    intro rs hrs
    exact State.answers_of_learnsTo mode hs.settled hlaw (Nat.le_refl _) hb hheap rs hrs (.refl s)
  refine ⟨halone, ?_⟩
  intro rs rs' hrs hrs' i j hij
  rw [halone rs hrs, halone rs' hrs', List.getElem?_map, List.getElem?_map, hij]

/-- A member of an empty list under a new text, a member that data does not have, the
formula of `~` over `+`, and the value of a name. -/
def Request.samples : List Request :=
  [.eval (.call (.symbol Primitive.member.name)
      (.cons (.const (.list .plain .nil)) (.cons (.const (.str "u")) .nil))) .global,
    .eval (.call (.symbol Primitive.member.name)
      (.cons (.const (.pronoun (.list .plain .nil) "no %s")) (.cons (.const (.str "v")) .nil)))
      .global,
    .toFormula (.code (.call (.symbol .tilde) (.cons (.symbol Primitive.quote.name) .nil))) .global,
    .eval (.symbol Primitive.quote.name) .global]

/-- The texts `u` and `v` get their names in another order when the requests are made
backwards, twice and without the last one, and `v` is not found under the same text. -/
theorem answers_orderIndependent_samples :
    State.initial.Sound ∧ State.initial.interner.Lawful ∧
      State.initial.heap.Issued State.initial.interner.size ∧
      ((State.initial.answers .unlimited Request.samples)[1]? =
        (State.initial.answers .unlimited
          (Request.samples.dropLast.reverse ++ Request.samples.dropLast.reverse))[4]?) ∧
      State.initial.answer .unlimited (Request.samples[1]) =
        .error (.absentFromData "no %s" "v") := by
  have hs := State.sound_initial
  have hlaw : State.initial.interner.Lawful := Interner.lawful_initial
  have hheap : State.initial.heap.Issued State.initial.interner.size := by decide +kernel
  have hissued : ∀ r ∈ Request.samples, r.Issued State.initial.interner.size := by decide +kernel
  refine ⟨hs, hlaw, hheap, ?_, rfl⟩
  refine (answers_orderIndependent .unlimited hs hlaw (by decide +kernel) hheap).2 _ _ hissued ?_
    1 4 rfl
  intro r hr
  have hmem : r ∈ Request.samples.dropLast := by simpa using hr
  exact hissued r ((List.dropLast_sublist _).subset hmem)

end Overscope
