-- Where a data mask goes on above its top frame. The mask notes its parent in `.env`, where a
-- quosure without a scope of its own finds it, but names are looked up along the link of the top
-- frame, which is what it was before. So a name that the mask does not bind means what the parent
-- makes of it if the top frame is linked to the parent. Otherwise the link decides for the name
-- itself and `.env` for the quosure, and the two may differ.
import Overscope.Proofs.Isolation
import Overscope.Proofs.Wearing

namespace Overscope

/-! ## A mask over its frames -/

namespace Heap

variable {h t : Heap} {mask bottom top parent : EnvId}

/-- A new data mask over the frames from `bottom` to `top`, with the given parent on record. -/
structure NewOver (t : Heap) (mask bottom top parent : EnvId) : Prop where
  acyclic : t.Acyclic
  own : ∀ n, t.local? mask n = (maskBindings mask top parent).get? n
  link : t.Link mask bottom
  on : t.hasAncestor bottom top
  isLive : t.isLive top

theorem newOver_addMask (hac : h.Acyclic) (hc : h.Closed) (hb : bottom.index < h.size)
    (ha : h.hasAncestor bottom top) (hl : h.isLive top) (parent : EnvId) :
    (h.addMask bottom top parent).2.NewOver (h.addMask bottom top parent).1 bottom top parent := by
  obtain ⟨hac', frames, hcovers⟩ := covers_addMask hac hc hb ha parent
  refine ⟨hac', fun n => ?_, hcovers.link, hcovers.on, ?_⟩
  · show local? _ ⟨h.size⟩ n = _
    rw [local?, bindings, frame?_addMask, if_pos rfl]
    rfl
  · exact ((GrowsTo.refl h).addMask hb top parent).isLive hl

/-- Without a bottom the mask is built over a new frame inside of the parent. -/
theorem newOver_maskOver (hac : h.Acyclic) (hc : h.Closed) {bottom top : Option EnvId}
    (hbottom : ∀ b ∈ bottom, h.isLive b) (htop : ∀ e ∈ top, h.isLive e) (hparent : h.isLive parent)
    (hm : h.maskOver bottom top parent = .ok (mask, t)) :
    t.NewOver mask (bottom.getD h.newBottom) (top.getD (bottom.getD h.newBottom)) parent := by
  obtain ⟨h₁, hgrows, hb, hm⟩ : ∃ h₁, h.GrowsTo h₁ ∧ h₁.isLive (bottom.getD h.newBottom) ∧
      h₁.maskOver (some (bottom.getD h.newBottom)) top parent = .ok (mask, t) := by
    cases bottom with
    | none =>
      refine ⟨(h.alloc (.empty (some parent))).2, ?_, ?_, hm⟩
      · exact (GrowsTo.refl h).alloc_inside rfl (index_lt_size hparent)
      · exact congrArg Option.isSome (frame?_alloc_self h (.empty (some parent)))
    | some b => exact ⟨h, .refl h, hbottom b rfl, hm⟩
  simp only [maskOver] at hm
  split at hm
  · next ha =>
    have hl : h₁.isLive (top.getD (bottom.getD h.newBottom)) := by
      cases top with
      | none => exact hb
      | some e => exact hgrows.isLive (htop e rfl)
    have hnew := newOver_addMask (hgrows.acyclic hc hac) (hgrows.closed hc) (index_lt_size hb) ha
      hl parent
    rw [Except.ok.inj hm] at hnew
    exact hnew
  · cases hm

/-! ## What lies above the top frame -/

/-- Neither the mask nor a frame up to its top one binds the name. -/
structure Unbound (h : Heap) (mask bottom top : EnvId) (n : Name) : Prop where
  mask : h.local? mask n = none
  frames : ∀ e ∈ h.dataFrames bottom top, h.local? e n = none

/-- What a name means above a frame. -/
def resolveAbove? (h : Heap) (top : EnvId) (n : Name) : Option Value :=
  (h.parent? top).bind (h.resolve? · n)

namespace NewOver

variable (hn : t.NewOver mask bottom top parent)

include hn

theorem mask_ne_top : mask ≠ top := by
  intro heq
  have hon := (hasAncestor_iff_reflTransGen hn.acyclic).1 hn.on
  rw [← heq] at hon
  exact hn.acyclic mask (.head' hn.link hon)

theorem hasAncestor : t.hasAncestor mask top :=
  (hasAncestor_of_link hn.acyclic hn.link hn.mask_ne_top).trans hn.on

theorem dataFrames : t.dataFrames mask top = mask :: t.dataFrames bottom top :=
  dataFrames_of_link hn.acyclic hn.link hn.mask_ne_top hn.hasAncestor

theorem chain : t.chain mask = mask :: (t.dataFrames bottom top ++ (t.chain top).tail) := by
  rw [chain_eq_dataFrames_append hn.acyclic hn.hasAncestor, hn.dataFrames, List.cons_append]

/-- The chain of the mask goes on in the parent exactly where the top frame is linked to it. -/
theorem chain_eq_iff :
    t.chain mask = mask :: (t.dataFrames bottom top ++ t.chain parent) ↔ t.Link top parent := by
  rw [hn.chain, List.cons.injEq, List.append_cancel_left_eq]
  constructor
  · rintro ⟨-, htail⟩
    rcases hp : t.parent? top with _ | p
    · rw [chain_of_root hp] at htail
      cases htail
    · rw [chain_of_link hn.acyclic hp, List.tail_cons] at htail
      have hhead := congrArg List.head? htail
      rw [head?_chain, head?_chain] at hhead
      rw [Link, hp, hhead]
  · intro hlink
    rw [chain_of_link hn.acyclic hlink]
    exact ⟨rfl, rfl⟩

theorem resolve?_of_unbound {n : Name} (hu : t.Unbound mask bottom top n) :
    t.resolve? mask n = t.resolveAbove? top n := by
  rw [resolve?, hn.chain, List.findSome?_cons, hu.mask, List.findSome?_append,
    List.findSome?_eq_none_iff.2 hu.frames, Option.none_or, resolveAbove?]
  rcases hp : t.parent? top with _ | p
  · rw [chain_of_root hp]
    rfl
  · rw [chain_of_link hn.acyclic hp]
    rfl

/-- In the splice of a scope an unbound name means what it means in the scope. -/
theorem spliceWhere?_of_unbound {n : Name} (hu : t.Unbound mask bottom top n) (target : EnvId) :
    t.spliceWhere? mask top target n (fun _ => true) = t.resolve? target n := by
  have hname : n ≠ .env := by
    rintro rfl
    have henv := hn.own .env
    rw [hu.mask] at henv
    cases henv
  have hlocal : ∀ e, t.spliceLocal? mask target e n = t.local? e n := by
    intro e
    rw [spliceLocal?, if_neg fun hc => hname hc.2.2]
  have hnone : ∀ e ∈ t.dataFrames mask top,
      (t.local? e n).filter (fun _ => true) = none := by
    rw [hn.dataFrames, List.forall_mem_cons]
    refine ⟨by rw [hu.mask]; rfl, fun e he => ?_⟩
    rw [hu.frames e he]
    rfl
  rw [spliceWhere?, splicePath, resolve?_eq_resolveWhere?, resolveWhere?]
  simp only [hlocal]
  rw [List.findSome?_append, List.findSome?_eq_none_iff.2 hnone, Option.none_or]

/-- The mask does with quosures what it was built for. -/
theorem intact : t.view.Intact mask top where
  tilde := hn.own .tilde
  isLive := ⟨isLive_of_parent? hn.link, hn.isLive⟩
  onChain := by
    rw [hasAncestor_view hn.acyclic]
    exact hn.hasAncestor

end NewOver

end Heap

/-! ## A name, and a quosure of it -/

/-- The mask falls back to the parent for the name: looked up in the mask it means what it means
in the parent, and a quosure of it without a scope gives in the mask what the symbol gives. -/
structure State.FallsBack (s : State) (mask top parent : EnvId) (n : Name) : Prop where
  lookup : s.heap.resolve? mask n = s.heap.resolve? parent n
  evalTilde : ∀ mode, (Formula.quosure (.symbol n) none).toValue.evalTilde mode mask top s =
    (Expr.symbol n).eval mode mask s
  inlined : (Expr.const (Formula.quosure (.symbol n) none).toValue).eval .unlimited mask s =
    (Expr.symbol n).eval .unlimited mask s

section
variable {s : State} {mask bottom top parent : EnvId}

theorem eval_symbol_of_unbound (hn : s.heap.NewOver mask bottom top parent) {n : Name}
    (hu : s.heap.Unbound mask bottom top n) (mode : Mode) :
    (Expr.symbol n).eval mode mask s =
      (found (.undefinedVariable (s.interner.text n)) (s.heap.resolveAbove? top n), s) := by
  rw [Expr.eval_symbol_run, ← Heap.resolve?_eq_resolveWhere?, hn.resolve?_of_unbound hu]

variable (hs : s.Sound)

include hs

/-- A quosure without a scope goes on in the parent on record. -/
theorem evalTilde_of_env (henv : s.heap.local? mask .env = some (.env parent)) (mode : Mode)
    {e : Expr} (he : e.isSymbolic) :
    (Formula.quosure e none).toValue.evalTilde mode mask top s =
      (Formula.quosure e (some parent)).toValue.evalTilde mode mask top s := by
  have htarget : targetIn s.heap.view none mask = targetIn s.heap.view (some parent) mask := by
    have hlocal : s.heap.view.local? mask .env = some (.env parent) := henv
    simp only [targetIn, hlocal]
  rw [evalTilde_symbolic hs mode he, evalTilde_symbolic hs mode he, htarget]

variable (hn : s.heap.NewOver mask bottom top parent)

include hn

variable {n : Name} (hu : s.heap.Unbound mask bottom top n)

include hu

/-- The parent gives the quosure its value, unless it has the top frame on its chain. -/
theorem evalTilde_of_unbound (mode : Mode) :
    (Formula.quosure (.symbol n) none).toValue.evalTilde mode mask top s =
      (if s.heap.hasAncestor parent top then .error .cyclicScope
        else found (.undefinedVariable (s.interner.text n)) (s.heap.resolve? parent n), s) := by
  rw [evalTilde_of_env hs (hn.own .env) mode rfl]
  by_cases hcyc : s.heap.hasAncestor parent top
  · rw [evalTilde_cyclic hs mode hn.hasAncestor hcyc rfl, if_pos hcyc]
  · rw [evalTilde_symbol hs mode hn.isLive hn.hasAncestor hcyc, hn.spliceWhere?_of_unbound hu,
      if_neg hcyc]

theorem fallsBack_iff : s.FallsBack mask top parent n ↔
    ¬ s.heap.hasAncestor parent top ∧ s.heap.resolveAbove? top n = s.heap.resolve? parent n := by
  constructor
  · intro hf
    refine ⟨fun hcyc => ?_, (hn.resolve?_of_unbound hu).symm.trans hf.lookup⟩
    have hsame := hf.evalTilde .unlimited
    rw [evalTilde_of_unbound hs hn hu, if_pos hcyc, eval_symbol_of_unbound hn hu] at hsame
    rcases hv : s.heap.resolveAbove? top n with _ | v
    · rw [hv] at hsame
      cases hsame
    · rw [hv] at hsame
      cases hsame
  · rintro ⟨hoff, hsame⟩
    have hmode : ∀ mode, (Formula.quosure (.symbol n) none).toValue.evalTilde mode mask top s =
        (Expr.symbol n).eval mode mask s := by
      intro mode
      rw [evalTilde_of_unbound hs hn hu, if_neg hoff, eval_symbol_of_unbound hn hu, hsame]
    refine ⟨(hn.resolve?_of_unbound hu).trans hsame, hmode, ?_⟩
    have hcode := eval_const_quosure hs hn.intact.toAnswers (.cons (.symbol n) .nil) none
    exact hcode.trans (hmode .unlimited)

end

/-- Where a mask over the frames from `bottom` to `top` goes on, and when that is in its
parent. -/
structure State.GoesOnAbove (s : State) (mask bottom top parent : EnvId) : Prop where
  /-- The chain of the mask goes on in the parent exactly where the top frame is linked to it. -/
  chain_iff : s.heap.chain mask = mask :: (s.heap.dataFrames bottom top ++ s.heap.chain parent) ↔
    s.heap.Link top parent
  /-- The link of the top frame gives an unbound name its meaning. -/
  lookup : ∀ n, s.heap.Unbound mask bottom top n →
    s.heap.resolve? mask n = s.heap.resolveAbove? top n
  /-- The parent gives it to a quosure without a scope. -/
  quosure : ∀ n, s.heap.Unbound mask bottom top n → ∀ mode,
    (Formula.quosure (.symbol n) none).toValue.evalTilde mode mask top s =
      (if s.heap.hasAncestor parent top then .error .cyclicScope
        else found (.undefinedVariable (s.interner.text n)) (s.heap.resolve? parent n), s)
  /-- So the mask falls back to the parent where these two are the same, and the parent does not
  have the top frame on its chain. -/
  fallsBack_iff : ∀ n, s.heap.Unbound mask bottom top n → (s.FallsBack mask top parent n ↔
    ¬ s.heap.hasAncestor parent top ∧ s.heap.resolveAbove? top n = s.heap.resolve? parent n)
  /-- With the link to the parent it does so for each unbound name. -/
  of_link : s.heap.Link top parent → ∀ n, s.heap.Unbound mask bottom top n →
    s.FallsBack mask top parent n

/-- A mask that was just built over frames of the caller, or over a frame of its own. -/
theorem goesOnAbove_of_maskOver {h : Heap} (hac : h.Acyclic) (hc : h.Closed)
    {bottom top : Option EnvId} {parent mask : EnvId} {s : State}
    (hbottom : ∀ b ∈ bottom, h.isLive b) (htop : ∀ e ∈ top, h.isLive e) (hparent : h.isLive parent)
    (hm : h.maskOver bottom top parent = .ok (mask, s.heap)) (hset : s.heap.Settled s.held) :
    s.GoesOnAbove mask (bottom.getD h.newBottom) (top.getD (bottom.getD h.newBottom)) parent := by
  have hn := Heap.newOver_maskOver hac hc hbottom htop hparent hm
  have hs : s.Sound := ⟨hn.acyclic, hset⟩
  refine ⟨hn.chain_eq_iff, fun n hu => hn.resolve?_of_unbound hu,
    fun n hu mode => evalTilde_of_unbound hs hn hu mode, fun n hu => fallsBack_iff hs hn hu, ?_⟩
  intro hlink n hu
  refine (fallsBack_iff hs hn hu).2 ⟨fun hback => ?_, ?_⟩
  · exact hn.acyclic _ (.head' hlink ((Heap.hasAncestor_iff_reflTransGen hn.acyclic).1 hback))
  · rw [Heap.resolveAbove?, hlink]
    rfl

/-- The global environment, where `x = 2`, and an empty frame ⟨2⟩ inside of `outer`. -/
def Heap.sampleAside (outer : EnvId) : Heap :=
  ((Heap.initial.bind .global ⟨12⟩ (.int 2)).alloc (.empty (some outer))).2

/-- A mask ⟨3⟩ over the frame ⟨2⟩, with the global environment as its parent. -/
def State.sampleAside (outer : EnvId) : State :=
  { State.initial with
    interner := Interner.initial.internAll ["x"]
    heap := match (Heap.sampleAside outer).maskOver (some ⟨2⟩) none .global with
      | .ok (_, h) => h
      | .error _ => .initial
    held := [.base, .global, ⟨2⟩, ⟨3⟩] }

/-- Over a frame of the global environment the mask finds `x` there. -/
theorem goesOnAbove_of_maskOver_sampleAside :
    let s := State.sampleAside .global
    (Heap.sampleAside .global).Acyclic ∧ (Heap.sampleAside .global).Closed ∧
      (Heap.sampleAside .global).maskOver (some ⟨2⟩) none .global = .ok (⟨3⟩, s.heap) ∧
      s.heap.Settled s.held ∧ s.heap.Unbound ⟨3⟩ ⟨2⟩ ⟨2⟩ ⟨12⟩ ∧
      s.heap.Link ⟨2⟩ .global ∧ s.FallsBack ⟨3⟩ ⟨2⟩ .global ⟨12⟩ ∧
      (s.heap.resolve? ⟨3⟩ ⟨12⟩).map (· == .int 2) = some true := by
  intro s
  have hac : (Heap.sampleAside .global).Acyclic := by decide +kernel
  have hc : (Heap.sampleAside .global).Closed := by decide +kernel
  have hm : (Heap.sampleAside .global).maskOver (some ⟨2⟩) none .global = .ok (⟨3⟩, s.heap) := rfl
  have hset : s.heap.Settled s.held := by decide +kernel
  have hunbound : s.heap.Unbound ⟨3⟩ ⟨2⟩ ⟨2⟩ ⟨12⟩ := ⟨rfl, by decide +kernel⟩
  have hlink : s.heap.Link ⟨2⟩ .global := rfl
  have hgoes := goesOnAbove_of_maskOver hac hc (by decide +kernel) (by decide +kernel)
    (by decide +kernel) hm hset
  exact ⟨hac, hc, hm, hset, hunbound, hlink, hgoes.of_link hlink ⟨12⟩ hunbound, by decide +kernel⟩

/-- Over a frame of the base environment it does not, though its parent is the global one: `x` is
undefined in the mask, and a quosure of `x` without a scope is `2`. -/
theorem not_fallsBack_sampleAside :
    let s := State.sampleAside .base
    (Heap.sampleAside .base).Acyclic ∧
      (Heap.sampleAside .base).maskOver (some ⟨2⟩) none .global = .ok (⟨3⟩, s.heap) ∧
      s.heap.Unbound ⟨3⟩ ⟨2⟩ ⟨2⟩ ⟨12⟩ ∧ ¬ s.FallsBack ⟨3⟩ ⟨2⟩ .global ⟨12⟩ ∧
      s.heap.resolve? ⟨3⟩ ⟨12⟩ = none ∧
      (s.heap.resolve? .global ⟨12⟩).map (· == .int 2) = some true ∧
      (Expr.symbol ⟨12⟩).eval .unlimited ⟨3⟩ s = (.error (.undefinedVariable "x"), s) ∧
      ((Expr.const (Formula.quosure (.symbol ⟨12⟩) none).toValue).eval .unlimited ⟨3⟩
        s).1.toOption.map (· == .int 2) = some true := by
  intro s
  have hnone : s.heap.resolve? ⟨3⟩ ⟨12⟩ = none :=
    Option.isNone_iff_eq_none.1 (by decide +kernel)
  have hfound : (s.heap.resolve? .global ⟨12⟩).map (· == .int 2) = some true := by decide +kernel
  refine ⟨by decide +kernel, rfl, ⟨rfl, by decide +kernel⟩, fun hf => ?_, hnone, hfound, ?_,
    by decide +kernel⟩
  · rw [← hf.lookup, hnone] at hfound
    cases hfound
  · rw [Expr.eval_symbol_run, ← Heap.resolve?_eq_resolveWhere?, hnone]
    rfl

end Overscope
