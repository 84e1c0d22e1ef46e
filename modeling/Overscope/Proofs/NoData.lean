-- Evaluation without data and against an empty list. The first one takes an overscope without
-- data, the second one a mask over an empty frame, and code cannot tell them apart unless it
-- asks one of them for `.env` inside of another scope: only the mask follows that.
import Overscope.Proofs.Indifference
import Overscope.Proofs.MaskScope

namespace Overscope

/-! ## Outcomes up to the frames of a mask -/

/-- The value refers to none but the first `n` frames: it holds no other one, and is not what
`~` means in another one. -/
structure Value.Before (n : Nat) (u : Value) : Prop where
  made : u.Made n
  override : ∀ t, u = .override t → t.mask.index < n ∧ t.top.index < n

/-- The same failure, or the same value where that refers to none but the first `n` frames. -/
structure SameBefore (n : Nat) (r r' : Except EvalError Value) : Prop where
  error : ∀ err, r = .error err ↔ r' = .error err
  value : ∀ u : Value, u.Before n → (r = .ok u ↔ r' = .ok u)

theorem Value.Twin.eq_of_before {n : Nat} {u u' : Value} (h : Value.Twin n u u') :
    (u.Before n → u' = u) ∧ (u'.Before n → u = u') := by
  cases h with
  | same _ => exact ⟨fun _ => rfl, fun _ => rfl⟩
  | formula head args =>
    constructor
    · intro hb
      have hlt := hb.made ⟨n⟩ (mem_joinHandles.2 (Or.inl (List.mem_singleton.2 rfl)))
      exact absurd hlt (Nat.lt_irrefl n)
    · intro hb
      have hlt := hb.made ⟨n + 1⟩ (mem_joinHandles.2 (Or.inl (List.mem_singleton.2 rfl)))
      exact absurd hlt (Nat.not_succ_lt_self)
  | override =>
    constructor
    · intro hb
      exact absurd (hb.override _ rfl).1 (Nat.lt_irrefl n)
    · intro hb
      exact absurd (hb.override _ rfl).1 Nat.not_succ_lt_self

theorem UpTo.sameBefore {n : Nat} {r r' : Except EvalError Value} (h : UpTo (Value.Twin n) r r') :
    SameBefore n r r' := by
  cases h with
  | ok hu =>
    refine ⟨fun err => ?_, ?_⟩
    · constructor
      · intro herr
        cases herr
      · intro herr
        cases herr
    · intro u hb
      constructor
      · intro hok
        cases hok
        rw [hu.eq_of_before.1 hb]
      · intro hok
        cases hok
        rw [hu.eq_of_before.2 hb]
  | error err => exact ⟨fun _ => Iff.rfl, fun _ _ => Iff.rfl⟩

/-! ## The two masks -/

namespace Heap

variable {h : Heap} {home : EnvId}

theorem size_addQuosureMask (h : Heap) (scope : EnvId) :
    (h.addQuosureMask scope).2.size = h.size + 1 := by
  simp only [addQuosureMask, bind, size_modify, size_alloc]

/-- The mask has one frame more, and all new frames are alive. -/
theorem length_liveFrames_of_fresh {data : Value} {h' : Heap} (hf : h.FreshMask data home h') :
    h'.liveFrames.length = (h.addQuosureMask home).2.liveFrames.length + 1 := by
  have hold := h.frame?_addQuosureMask_of_old home
  have hmask : h'.liveFrames.length = h.liveFrames.length + 2 := by
    apply length_liveFrames_of_new hf.size
    · intro e he
      rw [isLive, hf.old e he, isLive]
    · intro i hi
      rcases Nat.lt_succ_iff_lt_or_eq.1 hi with hi | rfl
      · obtain rfl := Nat.lt_one_iff.1 hi
        exact isLive_of_parent? hf.link_bottom
      · exact isLive_of_parent? hf.link_mask
  have hbare : (h.addQuosureMask home).2.liveFrames.length = h.liveFrames.length + 1 := by
    apply length_liveFrames_of_new (h.size_addQuosureMask home)
    · intro e he
      rw [isLive, hold e he, isLive]
    · intro i hi
      obtain rfl := Nat.lt_one_iff.1 hi
      exact isLive_of_parent? (h.link_addQuosureMask home)
  rw [hmask, hbare]

/-- Both masks were just built over a scope graph whose frames lead to and hold none that was
not made. -/
theorem twins_of_fresh (hmade : ∀ x ∈ h.handles, x.index < h.size)
    (honly : h.OnlyTildeOverridden) (hhome : home.index < h.size) {kind : ListKind} {h' : Heap}
    (hf : h.FreshMask (.list kind .nil) home h') :
    View.Twins h.size home home (h.addQuosureMask home).2.view h'.view := by
  have hold := h.frame?_addQuosureMask_of_old home
  have hlocal : ∀ e name, e.index < h.size →
      (h.addQuosureMask home).2.local? e name = h.local? e name := fun e name he => by
    rw [local?, bindings, hold e he, local?, bindings]
  have hlinkBare := h.link_addQuosureMask home
  refine ⟨⟨?_, ?_, ?_, ?_, ?_⟩, length_liveFrames_of_fresh hf, hhome, hhome,
    isLive_of_parent? hlinkBare, isLive_of_parent? hf.link_mask, isLive_of_parent? hf.link_bottom,
    hlinkBare, hf.link_mask, hf.link_bottom, h.local?_addQuosureMask_self home, hf.local?_mask, ?_⟩
  · intro e he
    show (h.addQuosureMask home).2.parent? e = h'.parent? e
    rw [parent?, hold e he, parent?, hf.old e he]
  · intro e name he
    show (h.addQuosureMask home).2.local? e name = h'.local? e name
    rw [local?, bindings, hold e he, local?, bindings, hf.old e he]
  · intro e p he hp
    have hlink : (h.addQuosureMask home).2.parent? e = some p := hp
    rw [parent?, hold e he] at hlink
    exact hmade p (mem_handles_of_link hlink)
  · intro e name u he hu x hx
    have hbound : (h.addQuosureMask home).2.local? e name = some u := hu
    rw [hlocal e name he] at hbound
    exact hmade x (mem_handles_of_local? hbound hx)
  · intro e name u he hu
    have hbound : (h.addQuosureMask home).2.local? e name = some u := hu
    rw [hlocal e name he] at hbound
    exact honly e name u hbound
  · intro name u hu
    rcases hf.binds_bottom hu with ⟨hn, source, absence, rfl⟩ | hdata
    · exact ⟨hn, rfl⟩
    · cases hdata

end Heap

/-! ## Evaluation -/

/-- In a mask of its own an evaluation has the outcome that the views of the mask give. -/
theorem inOwnMask_outcome {build : Heap → Except EvalError (EnvId × Heap)}
    {takeDown : Heap → EnvId → Heap} {s : State} {mask : EnvId} {heap : Heap}
    (hb : build s.heap = .ok (mask, heap))
    (hs : ({ s with heap, held := mask :: s.held } : State).Sound) (mode : Mode) (e : Expr) :
    (inOwnMask build takeDown (e.eval mode) s).1 =
      (e.evalIn heap.view (mode.allowance s.depth) mask s.memo).1 := by
  simp only [inOwnMask, hb, e.eval_eq_onMemo hs mode mask]
  rfl

section

variable (mode : Mode) {code : Value} {env : EnvId} {s : State} (hs : s.Sound)
  (hmade : ∀ x ∈ env :: (code.handles ++ s.heap.handles), x.index < s.heap.size)

include hs hmade

/-- Two evaluations with related outcomes in twin overscopes have them in the two masks. -/
theorem upTo_evalWithData {R : Value → Value → Prop}
    (hcode : ∀ v w, View.Twins s.heap.size (code.scopeOr env) (code.scopeOr env) v w → ∀ d,
      Agree R (code.body.evalIn v d ⟨s.heap.size⟩) (code.body.evalIn w d ⟨s.heap.size + 1⟩))
    (honly : s.heap.OnlyTildeOverridden) (kind : ListKind) :
    UpTo R (evalWithData mode code .null env s).1
      (evalWithData mode code (.list kind .nil) env s).1 := by
  have hheap : ∀ x ∈ s.heap.handles, x.index < s.heap.size := fun x hx =>
    hmade x (List.mem_cons_of_mem env (List.mem_append_right _ hx))
  have hscope : (code.scopeOr env).index < s.heap.size := by
    refine hmade _ (List.mem_cons.2 ?_)
    exact (List.mem_cons.1 (code.scopeOr_mem env)).imp_right (List.mem_append_left _)
  have hc : s.heap.Closed := fun e p hp => hheap p (Heap.mem_handles_of_link hp)
  have hsound : ∀ mask heap, s.heap.GrowsByMask heap mask →
      ({ s with heap, held := mask :: s.held } : State).Sound := fun mask heap hm =>
    ⟨hm.grows.acyclic hc hs.acyclic, hm.settled hs.settled⟩
  obtain ⟨mask, heap, hb⟩ :
      ∃ mask heap, s.heap.maskOf (.list kind .nil) (code.scopeOr env) = .ok (mask, heap) :=
    ⟨_, _, Heap.maskOver_self ..⟩
  obtain ⟨rfl, hfresh⟩ := Heap.freshMask_maskOf hb
  have hnull : (evalWithData mode code .null env s).1 = _ :=
    @inOwnMask_outcome (fun h => .ok (h.addQuosureMask (code.scopeOr env))) (fun h _ => h) s _ _ rfl
      (hsound _ _ (Heap.growsByMask_addQuosureMask hscope)) mode code.body
  have hnil : (evalWithData mode code (.list kind .nil) env s).1 = _ :=
    @inOwnMask_outcome (·.maskOf (.list kind .nil) (code.scopeOr env)) Heap.stripMask s _ _ hb
      (hsound _ _ (Heap.growsByMask_maskOf hscope hb)) mode code.body
  rw [hnull, hnil]
  exact (hcode _ _ (Heap.twins_of_fresh hheap honly hscope hfresh) _ s.memo).1

/-- Evaluation without data fails as the one against an empty list does, or it has the same
value, or the two values refer to frames of the two masks. Code that has a name of a mask in it
could tell them apart, and so could a quosure without an environment that stands inside of one
with another environment than that of the evaluation. Inside of the quosures that are left a
symbol means the same in both, unless it is the `~` that the masks override. -/
theorem evalWithData_null_nil (honly : s.heap.OnlyTildeOverridden)
    (havoids : code.body.Avoids reservedNames)
    (hhome : code.body.Homely (code.scopeOr env) (code.scopeOr env)) (kind : ListKind) :
    SameBefore s.heap.size (evalWithData mode code .null env s).1
        (evalWithData mode code (.list kind .nil) env s).1 ∧
      ∀ name, name ≠ .tilde → code.body.Nests name →
        (evalWithData mode code .null env s).1 =
          (evalWithData mode code (.list kind .nil) env s).1 := by
  have hbody : ∀ x ∈ code.body.handles, x.index < s.heap.size := fun x hx =>
    hmade x (List.mem_cons_of_mem env (List.mem_append_left _ (Value.mem_handles_of_body hx)))
  constructor
  · apply UpTo.sameBefore
    refine upTo_evalWithData mode hs hmade ?_ honly kind
    intro v w h d
    exact code.body.agree_evalIn h hbody havoids hhome d
  · intro name htilde hn
    have hequal := upTo_evalWithData mode hs hmade (R := Eq) (fun v w h d =>
      hn.agree_evalIn (hn.not_mem_of_avoids havoids) htilde h hbody hhome d) honly kind
    generalize (evalWithData mode code .null env s).1 = r at hequal ⊢
    generalize (evalWithData mode code (.list kind .nil) env s).1 = r' at hequal ⊢
    cases hequal with
    | ok heq => rw [heq]
    | error err => rfl

end

/-! ### Nested quosures -/

/-- An outcome that compares equal to an integer is that integer. -/
theorem ok_of_beq_int {r : Except EvalError Value} {m : Int64}
    (h : r.toOption.map (· == .int m) = some true) : r = .ok (.int m) := by
  obtain ⟨v, hv, heq⟩ := Option.map_eq_some_iff.1 h
  cases r with
  | error err => cases hv
  | ok u =>
    obtain rfl := Option.some.inj hv
    cases u with
    | int k => rw [of_decide_eq_true heq]
    | _ => cases heq

/-- The variable `x` in a quosure without an environment, inside of one whose environment is
the frame ⟨2⟩, inside of one that goes on in the global environment. -/
def Expr.sampleReturning : Expr :=
  .const (Formula.quosure (.const (Formula.quosure (.const
    (Formula.quosure (.symbol ⟨12⟩) none).toValue) (some ⟨2⟩)).toValue) (some .global)).toValue

/-- From ⟨2⟩ the innermost quosure goes on in ⟨2⟩ again, with data and without. -/
theorem evalWithData_null_nil_sample :
    State.sample.Sound ∧ State.sample.heap.OnlyTildeOverridden ∧
      SameBefore 5 (evalWithData .unlimited (.code .sampleReturning) .null ⟨2⟩ .sample).1
        (evalWithData .unlimited (.code .sampleReturning) (.list .plain .nil) ⟨2⟩ .sample).1 ∧
      (evalWithData .unlimited (.code .sampleReturning) .null ⟨2⟩ .sample).1 =
        (evalWithData .unlimited (.code .sampleReturning) (.list .plain .nil) ⟨2⟩ .sample).1 ∧
      (evalWithData .unlimited (.code .sampleReturning) .null ⟨2⟩ .sample).1 = .ok (.int 30) := by
  have honly : State.sample.heap.OnlyTildeOverridden := by decide
  have hname : (⟨12⟩ : Name) ∉ reservedNames := by decide
  have havoids : Expr.sampleReturning.Avoids reservedNames :=
    ⟨⟨⟨hname, trivial⟩, trivial⟩, trivial⟩
  have hhome : Expr.sampleReturning.Homely ⟨2⟩ ⟨2⟩ := by
    simp [Expr.sampleReturning, Formula.quosure, Formula.toValue, Expr.Homely, Value.Homely,
      Args.RhsHomely]
  have hnests : Expr.sampleReturning.Nests ⟨12⟩ := .quosure _ (.quosure _ (.quosure _ .symbol))
  obtain ⟨hsame, hequal⟩ := @evalWithData_null_nil .unlimited (.code .sampleReturning) ⟨2⟩ .sample
    State.sound_sample (by decide) honly havoids hhome .plain
  exact ⟨State.sound_sample, honly, hsame, hequal ⟨12⟩ (by decide) hnests,
    ok_of_beq_int (by decide +kernel)⟩

/-- The same without the quosure in between: what has no environment stands in the global one. -/
def Expr.sampleStray : Expr :=
  .const (Formula.quosure (.const (Formula.quosure (.symbol ⟨12⟩) none).toValue)
    (some .global)).toValue

/-- Without data it goes on in the frame ⟨2⟩ of the evaluation, where `x = 30`, and with data
in the global environment, where `x = 2`. -/
theorem not_sameBefore_sampleStray :
    State.sample.Sound ∧
      (∀ x ∈ (⟨2⟩ : EnvId) :: ((Value.code .sampleStray).handles ++ State.sample.heap.handles),
        x.index < State.sample.heap.size) ∧
      State.sample.heap.OnlyTildeOverridden ∧ Expr.sampleStray.Avoids reservedNames ∧
      Expr.sampleStray.Nests ⟨12⟩ ∧
      (evalWithData .unlimited (.code .sampleStray) .null ⟨2⟩ .sample).1 = .ok (.int 30) ∧
      (evalWithData .unlimited (.code .sampleStray) (.list .plain .nil) ⟨2⟩ .sample).1 =
        .ok (.int 2) ∧
      ¬ SameBefore State.sample.heap.size
        (evalWithData .unlimited (.code .sampleStray) .null ⟨2⟩ .sample).1
        (evalWithData .unlimited (.code .sampleStray) (.list .plain .nil) ⟨2⟩ .sample).1 := by
  have hname : (⟨12⟩ : Name) ∉ reservedNames := by decide
  have hnull : (evalWithData .unlimited (.code .sampleStray) .null ⟨2⟩ .sample).1 =
      .ok (.int 30) := ok_of_beq_int (by decide +kernel)
  have hnil : (evalWithData .unlimited (.code .sampleStray) (.list .plain .nil) ⟨2⟩ .sample).1 =
      .ok (.int 2) := ok_of_beq_int (by decide +kernel)
  refine ⟨State.sound_sample, by decide, by decide, ⟨⟨hname, trivial⟩, trivial⟩,
    .quosure _ (.quosure _ .symbol), hnull, hnil, ?_⟩
  intro hsame
  have hbefore : (Value.int 30).Before State.sample.heap.size :=
    ⟨List.forall_mem_nil _, fun t ht => by cases ht⟩
  have hother := (hsame.value (.int 30) hbefore).1 hnull
  rw [hnil] at hother
  cases hother

end Overscope
