-- Where evaluation goes on in a mask that was pointed at a scope. With the top frame on the
-- chain of the mask, the frames up to it come first and then the chain of the scope. The top
-- frame on record may have left that chain since the mask was made: pointing the mask then
-- rewires a frame that the mask does not go through, and the scope is not in scope.
import Overscope.Proofs.Pointing
import Overscope.Proofs.Splicing

open Relation

namespace Overscope

theorem findSome?_congr {ι γ : Type} {f g : ι → Option γ} {is : List ι}
    (hsame : ∀ i ∈ is, f i = g i) : is.findSome? f = is.findSome? g := by
  induction is with
  | nil => rfl
  | cons i is ih =>
    rw [List.forall_mem_cons] at hsame
    rw [List.findSome?_cons, List.findSome?_cons, hsame.1, ih hsame.2]

namespace Heap

/-! ## Chains after a sweep -/

/-- A frame that lives on keeps all frames of its chain as they are. -/
theorem frame?_sweep_of_mem_chain {h : Heap} {held : List EnvId} {e f : EnvId}
    (hl : (h.sweep held).isLive e) (hf : f ∈ h.chain e) :
    (h.sweep held).frame? f = h.frame? f := by
  have hpath : ReflTransGen h.Link e f := reflTransGen_of_mem_chainUpTo hf
  clear hf
  -- Each frame on the way holds its parent, so what spares the first one spares them all.
  induction hpath with
  | refl => exact frame?_sweep_of_isLive hl
  | tail _ hlink ih => exact frame?_sweep_of_link hlink ih

theorem chain_sweep {h : Heap} {held : List EnvId} {e : EnvId} (hl : (h.sweep held).isLive e) :
    (h.sweep held).chain e = h.chain e := by
  rw [chain, chain, size_sweep]
  exact chainUpTo_congr fun f hf => parent?_congr (frame?_sweep_of_mem_chain hl hf)

/-! ## The chain of a mask that is pointed -/

/-- In `t` a mask goes on in a scope: the frames up to its top one come first, then the chain
of the scope as it was in `h`, and a name that those frames do not bind means there what it
meant in the scope. -/
structure GoesOnIn (h : Heap) (mask top scope : EnvId) (t : Heap) : Prop where
  below : t.hasAncestor mask top
  chain : t.chain mask = h.dataFrames mask top ++ h.chain scope
  resolveWhere? : ∀ name accept,
    (∀ f ∈ h.dataFrames mask top, (t.local? f name).filter accept = none) →
      t.resolveWhere? mask name accept = h.resolveWhere? scope name accept

section
variable {h : Heap} (hac : h.Acyclic) {mask top scope : EnvId}
  (hoff : ¬ h.hasAncestor scope top) {held : List EnvId}
  (hlive : ((h.pointAt mask top scope).sweep held).isLive mask)

include hlive

/-- Pointing a mask brings its top frame neither onto the chain nor off it. -/
theorem hasAncestor_pointed :
    ((h.pointAt mask top scope).sweep held).hasAncestor mask top = h.hasAncestor mask top := by
  rw [hasAncestor, chain_sweep hlive, ← hasAncestor, hasAncestor_pointAt]

/-- Off the chain the top frame goes on in the scope, and the mask where it went on before. -/
theorem chain_pointed_of_off (ha : ¬ h.hasAncestor mask top) :
    ((h.pointAt mask top scope).sweep held).chain mask = h.chain mask := by
  rw [chain_sweep hlive, pointAt, (sameLinks_bind ..).chain, chain_setParent_of_off ha]

include hac hoff

theorem chain_pointed (hl : h.isLive top) (ha : h.hasAncestor mask top) :
    ((h.pointAt mask top scope).sweep held).chain mask =
      h.dataFrames mask top ++ h.chain scope := by
  rw [chain_sweep hlive, pointAt, (sameLinks_bind ..).chain,
    chain_setParent hac (acyclic_setParent hac hoff) hl ha]
  rfl

/-- A mask is not in a scope without the top frame, so the scope binds what it bound. -/
theorem local?_pointed_of_mem_chain (hl : h.isLive top) (ha : h.hasAncestor mask top) {f : EnvId}
    (hf : f ∈ h.chain scope) (name : Name) :
    ((h.pointAt mask top scope).sweep held).local? f name = h.local? f name := by
  have hmem : f ∈ (h.pointAt mask top scope).chain mask := by
    rw [← chain_sweep hlive, chain_pointed hac hoff hlive hl ha]
    exact List.mem_append_right _ hf
  -- Through the mask the scope would get to the top frame.
  have hne : mask ≠ f := by
    rintro rfl
    refine hoff ((hasAncestor_iff_reflTransGen hac).2 ?_)
    exact ((mem_chain_iff hac).1 hf).trans ((hasAncestor_iff_reflTransGen hac).1 ha)
  rw [local?_congr (frame?_sweep_of_mem_chain hlive hmem), local?_pointAt,
    if_neg fun hc => hne hc.1]

/-- The mask goes on in the scope exactly if its top frame is on its chain. -/
theorem goesOnIn_iff (hl : h.isLive top) :
    h.GoesOnIn mask top scope ((h.pointAt mask top scope).sweep held) ↔
      h.hasAncestor mask top := by
  constructor
  · intro hgoes
    exact (hasAncestor_pointed hlive).symm.trans hgoes.below
  · intro ha
    have hchain := chain_pointed hac hoff hlive hl ha
    refine ⟨(hasAncestor_pointed hlive).trans ha, hchain, fun name accept hnone => ?_⟩
    rw [resolveWhere?, hchain, List.findSome?_append, List.findSome?_eq_none_iff.2 hnone,
      Option.none_or, resolveWhere?]
    refine findSome?_congr fun f hf => ?_
    rw [local?_pointed_of_mem_chain hac hoff hlive hl ha hf]

end

end Heap

/-! ## Calls on a mask -/

/-- A call that points its mask, and so gets as far as evaluating, evaluates in a chain that
runs from the mask up to its top frame and then into the scope of the call exactly if the top
frame is on the chain of the mask. If not, the chain is what it was, and the call has
rewired a frame that is not on it. -/
theorem evalWithData_goesOnIn_iff (mode : Mode) {s t : State} (hac : s.heap.Acyclic)
    {mask top : EnvId} (hm : s.heap.isMask mask) (hheld : mask ∈ s.held)
    (htop : s.heap.local? mask .topEnv = some (.env top)) (hl : s.heap.isLive top) (code : Value)
    (env : EnvId) (hrun : pointMask mask (code.scopeOr env) s = (.ok (), t)) :
    evalWithData mode code (.env mask) env s = code.body.eval mode mask t ∧
      (s.heap.GoesOnIn mask top (code.scopeOr env) t.heap ↔ s.heap.hasAncestor mask top) ∧
      (¬ s.heap.hasAncestor mask top →
        t.heap.chain mask = s.heap.chain mask ∧ t.heap.Link top (code.scopeOr env)) := by
  have hcall : evalWithData mode code (.env mask) env s = code.body.eval mode mask t := by
    rw [evalWithData_of_isMask mode code env hm, evalInMask, Attempt.bind_run_ok hrun]
  rw [pointMask_of_env htop] at hrun
  by_cases hcyc : s.heap.hasAncestor (code.scopeOr env) top
  · rw [if_pos hcyc] at hrun
    cases hrun
  · rw [if_neg hcyc] at hrun
    obtain rfl : ({ s with heap := (s.heap.pointAt mask top (code.scopeOr env)).sweep s.held } :
      State) = t := (Prod.mk.inj hrun).2
    have hmask : (s.heap.pointAt mask top (code.scopeOr env)).isLive mask := by
      rw [Heap.isLive_pointAt]
      exact Heap.isLive_of_hasLocal hm
    have hlive := Heap.isLive_sweep_of_mem hheld hmask
    refine ⟨hcall, Heap.goesOnIn_iff hac hcyc hlive hl, fun ha => ⟨?_, ?_⟩⟩
    · exact Heap.chain_pointed_of_off hlive ha
    · have honly := Heap.onlyPointed_sweep s.heap mask top (code.scopeOr env) s.held
      rw [Heap.Link, honly.parent? top (Heap.isLive_top_sweep htop hheld hl _), if_pos rfl]

/-- The sample mask goes on in the base frame when it is pointed at it. -/
theorem evalWithData_goesOnIn_iff_sample :
    State.sampleMask.heap.Acyclic ∧ State.sampleMask.heap.isMask ⟨3⟩ ∧
      State.sampleMask.heap.hasAncestor ⟨3⟩ ⟨2⟩ ∧
      State.sampleMask.heap.GoesOnIn ⟨3⟩ ⟨2⟩ .base (pointMask ⟨3⟩ .base .sampleMask).2.heap := by
  have hac : State.sampleMask.heap.Acyclic := by decide +kernel
  have hm : State.sampleMask.heap.isMask ⟨3⟩ := by decide +kernel
  have htop : State.sampleMask.heap.local? ⟨3⟩ .topEnv = some (.env ⟨2⟩) := rfl
  have hon : State.sampleMask.heap.hasAncestor ⟨3⟩ ⟨2⟩ := by decide +kernel
  have hrun : pointMask ⟨3⟩ .base .sampleMask =
      (.ok (), (pointMask ⟨3⟩ .base .sampleMask).2) := by
    rw [pointMask_of_env htop, if_neg (by decide +kernel)]
  refine ⟨hac, hm, hon, ?_⟩
  exact ((evalWithData_goesOnIn_iff .unlimited hac hm (by decide) htop (by decide +kernel)
    (.code (.symbol ⟨12⟩)) .base hrun).2.1).2 hon

/-! ### A mask without its top frame -/

/-- The mask ⟨3⟩ was made without data in the base frame, over the frame ⟨2⟩. Then it was hung
into the base frame, past ⟨2⟩. -/
def Heap.sampleStranded : Heap :=
  match (Heap.initial.bind .global ⟨12⟩ (.int 2)).maskOf (.list .plain .nil) .base with
  | .ok (mask, h) => match h.reparent mask (some .base) with
    | .ok h => h
    | .error _ => .initial
  | .error _ => .initial

def State.sampleStranded : State :=
  { State.initial with
    interner := Interner.initial.internAll ["x"]
    heap := .sampleStranded
    held := [.base, .global, ⟨2⟩, ⟨3⟩] }

/-- A quosure of the global environment, where `x = 2`, is refused in this mask. The same code
against the mask, there, gets as far as evaluating: the frame ⟨2⟩ goes from the base frame to
the global one, though it is not on the chain of the mask, and `x` is not found. -/
theorem not_goesOnIn_sampleStranded :
    let s := State.sampleStranded
    let t := (pointMask ⟨3⟩ .global s).2
    s.Sound ∧ s.heap.isMask ⟨3⟩ ∧ s.heap.local? ⟨3⟩ .topEnv = some (.env ⟨2⟩) ∧
      (Formula.quosure (.symbol ⟨12⟩) (some .global)).toValue.evalTilde .unlimited ⟨3⟩ ⟨2⟩ s =
        (.error .notAnAncestor, s) ∧
      pointMask ⟨3⟩ .global s = (.ok (), t) ∧
      ¬ s.heap.GoesOnIn ⟨3⟩ ⟨2⟩ .global t.heap ∧
      (⟨2⟩ : EnvId) ∉ s.heap.chain ⟨3⟩ ∧
      s.heap.parent? ⟨2⟩ = some .base ∧ t.heap.parent? ⟨2⟩ = some .global ∧
      (s.heap.resolve? .global ⟨12⟩).map (· == .int 2) = some true ∧
      evalWithData .unlimited (.code (.symbol ⟨12⟩)) (.env ⟨3⟩) .global s =
        (.error (.undefinedVariable "x"), t) := by
  intro s t
  have hs : s.Sound := ⟨by decide +kernel, by decide +kernel⟩
  have hm : s.heap.isMask ⟨3⟩ := by decide +kernel
  have htop : s.heap.local? ⟨3⟩ .topEnv = some (.env ⟨2⟩) := rfl
  have hoff : ¬ s.heap.hasAncestor ⟨3⟩ ⟨2⟩ := by decide +kernel
  have hrun : pointMask ⟨3⟩ .global s = (.ok (), t) := by
    rw [show t = (pointMask ⟨3⟩ .global s).2 from rfl, pointMask_of_env htop,
      if_neg (by decide +kernel)]
  refine ⟨hs, hm, htop, evalTilde_off_chain hs .unlimited hoff rfl _, hrun, fun hgoes => ?_,
    by decide +kernel, by decide +kernel, by decide +kernel, by decide +kernel, ?_⟩
  · exact absurd hgoes.below (by decide +kernel)
  · have hcall : evalWithData .unlimited (.code (.symbol ⟨12⟩)) (.env ⟨3⟩) .global s =
        (Expr.symbol ⟨12⟩).eval .unlimited ⟨3⟩ t :=
      (evalWithData_of_isMask .unlimited _ _ hm).trans (Attempt.bind_run_ok hrun)
    have hnone : (t.heap.resolveWhere? ⟨3⟩ ⟨12⟩ fun _ => true).isNone := by decide +kernel
    rw [hcall, Expr.eval_symbol_run, Option.isNone_iff_eq_none.1 hnone]
    rfl

end Overscope
