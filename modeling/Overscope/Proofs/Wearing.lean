-- A data mask from when it is built until it is stripped. Whatever is evaluated in it, and
-- wherever that points it, its top frame stays on its chain, and the frames up to there stay
-- the same ones. So stripping the mask empties these and no frame of a caller.
import Overscope.Proofs.Host
import Overscope.Proofs.MaskChain
import Overscope.Proofs.Termination

open Relation

namespace Overscope

namespace Heap

/-! ## The frames of data under a mask -/

/-- The frames up to the top one depend on nothing but the parents of the frames before it. -/
theorem dataFrames_congr {h t : Heap} (hac : h.Acyclic) (hac' : t.Acyclic) {e top : EnvId}
    (ha : h.hasAncestor e top)
    (hsame : ∀ f ∈ h.dataFrames e top, f ≠ top → t.parent? f = h.parent? f) :
    t.hasAncestor e top = true ∧ t.dataFrames e top = h.dataFrames e top := by
  revert hsame
  refine hasAncestor_induction hac (fun _ => ?_) (fun e p hp hne ha ih hsame => ?_) ha
  · rw [dataFrames_self, dataFrames_self]
    exact ⟨t.hasAncestor_self top, rfl⟩
  · rw [dataFrames_of_link hac hp hne ha, List.forall_mem_cons] at hsame
    have hlink : t.Link e p := (hsame.1 hne).trans hp
    obtain ⟨hon, hframes⟩ := ih hsame.2
    have hon' : t.hasAncestor e top = true := (hasAncestor_of_link hac' hlink hne).trans hon
    refine ⟨hon', ?_⟩
    rw [dataFrames_of_link hac' hlink hne hon', hframes, dataFrames_of_link hac hp hne ha]

theorem getLast?_dataFrames {h : Heap} (hac : h.Acyclic) {e top : EnvId}
    (ha : h.hasAncestor e top) : (h.dataFrames e top).getLast? = some top := by
  refine hasAncestor_induction hac ?_ (fun e p hp hne ha ih => ?_) ha
  · rw [dataFrames_self]
    rfl
  · rw [dataFrames_of_link hac hp hne ha, List.getLast?_cons, ih]
    rfl

/-- The frame `mask` is a data mask with all of its names, over the frames of data from
`bottom` to `top`. -/
structure Covers (h : Heap) (mask bottom top : EnvId) (frames : List EnvId) : Prop where
  names : ∀ n ∈ maskNames, h.hasLocal mask n
  topEnv : h.local? mask .topEnv = some (.env top)
  link : h.Link mask bottom
  on : h.hasAncestor bottom top
  frames : h.dataFrames bottom top = frames

namespace Covers

variable {h t : Heap} {mask bottom top : EnvId} {frames : List EnvId}

theorem isMask (hc : h.Covers mask bottom top frames) : h.isMask mask :=
  hc.names .maskFlag (by decide)

theorem chain (hc : h.Covers mask bottom top frames) (hac : h.Acyclic) :
    h.chain mask = mask :: (frames ++ (h.chain top).tail) := by
  rw [chain_of_link hac hc.link, chain_eq_dataFrames_append hac hc.on, hc.frames]

/-- No frame is there twice, on the way up from the mask. -/
theorem nodup (hc : h.Covers mask bottom top frames) (hac : h.Acyclic) :
    (mask :: (frames ++ (h.chain top).tail)).Nodup := by
  rw [← hc.chain hac]
  exact nodup_chainUpTo hac _ mask

theorem mask_notMem (hc : h.Covers mask bottom top frames) (hac : h.Acyclic) : mask ∉ frames :=
  fun hin => (List.nodup_cons.1 (hc.nodup hac)).1 (List.mem_append_left _ hin)

theorem top_mem (hc : h.Covers mask bottom top frames) (hac : h.Acyclic) : top ∈ frames := by
  rw [← hc.frames]
  exact List.mem_of_getLast? (getLast?_dataFrames hac hc.on)

/-- A mask stays what it is while its own names stay, but for the scope in `.env`, and the
frames of data keep their parents, but for the top one. -/
theorem of_same (hc : h.Covers mask bottom top frames) (hac : h.Acyclic) (hac' : t.Acyclic)
    (hlocal : ∀ n ∈ maskNames, n ≠ .env → t.local? mask n = h.local? mask n)
    (henv : t.hasLocal mask .env)
    (hparent : ∀ f ∈ mask :: frames, f ≠ top → t.parent? f = h.parent? f) :
    t.Covers mask bottom top frames := by
  have hne : mask ≠ top := fun heq => hc.mask_notMem hac (heq ▸ hc.top_mem hac)
  obtain ⟨hself, hframes⟩ := List.forall_mem_cons.1 hparent
  have hdata := dataFrames_congr hac hac' hc.on (by rw [hc.frames]; exact hframes)
  refine ⟨fun n hn => ?_, ?_, (hself hne).trans hc.link, hdata.1, hdata.2.trans hc.frames⟩
  · by_cases hname : n = .env
    · rw [hname]
      exact henv
    · rw [hasLocal, hlocal n hn hname]
      exact hc.names n hn
  · rw [hlocal .topEnv (by decide) (by decide), hc.topEnv]

/-- Changes of bindings leave the mask alone, unless they are of its own names. -/
theorem sameLinks (hc : h.Covers mask bottom top frames) (hac : h.Acyclic) (hsame : h.SameLinks t)
    (hlocal : ∀ n ∈ maskNames, t.local? mask n = h.local? mask n) :
    t.Covers mask bottom top frames := by
  refine hc.of_same hac (hsame.acyclic hac) (fun n hn _ => hlocal n hn) ?_
    (fun f _ _ => hsame.parent f)
  rw [hasLocal, hlocal .env (by decide)]
  exact hc.names .env (by decide)

/-- Held from outside, the mask holds all that is on its chain. -/
theorem sweep (hc : h.Covers mask bottom top frames) (hac : h.Acyclic) {held : List EnvId}
    (hheld : mask ∈ held) : (h.sweep held).Covers mask bottom top frames := by
  have hlive : (h.sweep held).isLive mask :=
    isLive_sweep_of_mem hheld (isLive_of_hasLocal hc.isMask)
  have hlocal := local?_congr (frame?_sweep_of_isLive hlive)
  refine hc.of_same hac (acyclic_sweep hac held) (fun n _ _ => hlocal n) ?_ fun f hf _ => ?_
  · rw [hasLocal, hlocal]
    exact hc.names .env (by decide)
  · have hmem : f ∈ h.chain mask := by
      rw [hc.chain hac, ← List.cons_append]
      exact List.mem_append_left _ hf
    exact parent?_congr (frame?_sweep_of_mem_chain hlive hmem)

/-- Pointing the mask rewires its top frame and no other one. -/
theorem pointAt (hc : h.Covers mask bottom top frames) (hac : h.Acyclic) {scope : EnvId}
    (hoff : ¬ h.hasAncestor scope top) : (h.pointAt mask top scope).Covers mask bottom top frames := by
  refine hc.of_same hac (acyclic_pointAt hac (Bool.eq_false_iff.2 hoff) mask) (fun n _ hn => ?_) ?_
    fun f _ hne => ?_
  · rw [local?_pointAt, if_neg fun heq => hn heq.2.2.symm]
  · rw [hasLocal, local?_pointAt, if_pos ⟨rfl, isLive_of_hasLocal hc.isMask, rfl⟩]
    rfl
  · rw [parent?_pointAt, if_neg (Ne.symm hne)]

end Covers

/-! ## Masks that were just built -/

theorem index_lt_of_mem_chain {h : Heap} (hc : h.Closed) {e f : EnvId} (he : e.index < h.size)
    (hf : f ∈ h.chain e) : f.index < h.size := by
  induction reflTransGen_of_mem_chainUpTo hf with
  | refl => exact he
  | tail _ hlink _ => exact hc _ _ hlink

theorem covers_of_frame? {t : Heap} {mask bottom top scope : EnvId}
    (hf : t.frame? mask = some ⟨maskBindings mask top scope, some bottom⟩)
    (ha : t.hasAncestor bottom top) : t.Covers mask bottom top (t.dataFrames bottom top) := by
  have hlocal : ∀ n, t.local? mask n = (maskBindings mask top scope).get? n := fun n => by
    rw [local?, bindings, hf]
    rfl
  refine ⟨fun n hn => ?_, hlocal .topEnv, ?_, ha, rfl⟩
  · rw [hasLocal, hlocal]
    simp only [maskNames, List.mem_cons, List.not_mem_nil, or_false] at hn
    rcases hn with rfl | rfl | rfl | rfl <;> rfl
  · rw [Link, parent?, hf]
    rfl

/-- A mask over frames that are there keeps their chains. -/
theorem covers_addMask {h : Heap} (hac : h.Acyclic) (hc : h.Closed) {bottom top : EnvId}
    (hb : bottom.index < h.size) (ha : h.hasAncestor bottom top) (parent : EnvId) :
    (h.addMask bottom top parent).2.Acyclic ∧
      ∃ frames, (h.addMask bottom top parent).2.Covers (h.addMask bottom top parent).1 bottom top
        frames := by
  have hgrows := (GrowsTo.refl h).addMask hb top parent
  have hac' := hgrows.acyclic hc hac
  have hon := (dataFrames_congr hac hac' ha fun f hf _ => by
    have hmem : f ∈ h.chain bottom := by
      rw [chain_eq_dataFrames_append hac ha]
      exact List.mem_append_left _ hf
    exact parent?_congr (hgrows.frame f (index_lt_of_mem_chain hc hb hmem))).1
  exact ⟨hac', _, covers_of_frame? ((frame?_addMask h bottom top parent _).trans (if_pos rfl)) hon⟩

/-- The frame `mask` is a new data mask in `t`, over given frames or over one made for it,
and everything else is as in `h`. -/
inductive MakesMask (h : Heap) (mask : EnvId) (t : Heap) : Prop
  | overFrames (bottom top : Option EnvId) (parent : EnvId) (hbottom : ∀ b ∈ bottom, h.isLive b)
      (hparent : h.isLive parent) (hm : h.maskOver bottom top parent = .ok (mask, t))
  | ofData (data : Value) (parent : EnvId) (hparent : h.isLive parent)
      (hm : h.maskOf data parent = .ok (mask, t))

theorem MakesMask.covers {h t : Heap} {mask : EnvId} (hac : h.Acyclic) (hc : h.Closed)
    (hm : h.MakesMask mask t) : t.Acyclic ∧ ∃ bottom top frames, t.Covers mask bottom top frames := by
  cases hm with
  | overFrames bottom top parent hbottom hparent hm =>
    -- Without a bottom the mask is built over a new frame.
    obtain ⟨h₁, b, hgrows, hb, hm⟩ : ∃ h₁ b, h.GrowsTo h₁ ∧ b.index < h₁.size ∧
        h₁.maskOver (some b) top parent = .ok (mask, t) := by
      cases bottom with
      | none =>
        have hframe := (GrowsTo.refl h).alloc_inside (f := .empty (some parent)) rfl
          (index_lt_size hparent)
        refine ⟨_, _, hframe, ?_, hm⟩
        rw [size_alloc]
        exact Nat.lt_succ_self _
      | some b => exact ⟨h, b, .refl h, index_lt_size (hbottom b rfl), hm⟩
    simp only [maskOver] at hm
    split at hm
    · next ha =>
      obtain ⟨hac', frames, hcovers⟩ :=
        covers_addMask (hgrows.acyclic hc hac) (hgrows.closed hc) hb ha parent
      rw [Except.ok.inj hm] at hac' hcovers
      exact ⟨hac', _, _, frames, hcovers⟩
    · cases hm
  | ofData data parent hparent hm =>
    have hac' := (growsByMask_maskOf (index_lt_size hparent) hm).grows.acyclic hc hac
    obtain ⟨rfl, hfresh⟩ := freshMask_maskOf hm
    exact ⟨hac', _, _, _, covers_of_frame? hfresh.mask (t.hasAncestor_self h.newBottom)⟩

/-! ## What stripping is -/

/-- In `t` the data mask of `h` is stripped, and nothing else is another one. -/
structure StripsTo (h : Heap) (mask top : EnvId) (frames : List EnvId) (t : Heap) : Prop where
  /-- The frames of data are those from the parent of the mask up to the top one. -/
  chain : h.chain mask = mask :: (frames ++ (h.chain top).tail)
  last : frames.getLast? = some top
  /-- All links are what they were, and the same frames are alive. -/
  links : h.SameLinks t
  /-- The mask loses its four names, all of which it had. -/
  bound : ∀ n ∈ maskNames, h.hasLocal mask n
  own : ∀ n, t.local? mask n = if n ∈ maskNames then none else h.local? mask n
  notMask : t.isMask mask = false
  data : ∀ e ∈ frames, t.bindings e = .empty
  others : ∀ e, e ≠ mask → e ∉ frames → t.frame? e = h.frame? e
  above : ∀ e ∈ (h.chain top).tail, t.frame? e = h.frame? e

theorem Covers.stripsTo {h : Heap} {mask bottom top : EnvId} {frames : List EnvId}
    (hc : h.Covers mask bottom top frames) (hac : h.Acyclic) :
    h.StripsTo mask top frames (h.stripMask mask) := by
  have hemptied : h.emptied mask = frames :=
    (emptied_of_link hc.link (lastEmptied?_of_top hc.topEnv)).trans hc.frames
  have hframe := fun f => frame?_stripMask h mask f
  rw [hemptied] at hframe
  have hnotMem := hc.mask_notMem hac
  have hmask : ∀ n, (h.stripMask mask).local? mask n =
      if n ∈ maskNames then none else h.local? mask n := by
    intro n
    rw [local?, bindings, hframe, if_neg hnotMem, if_pos rfl, local?, bindings]
    rcases h.frame? mask with _ | fr
    · simp
    · simp [Table.get?_withoutMaskNames]
  have hothers : ∀ e, e ≠ mask → e ∉ frames → (h.stripMask mask).frame? e = h.frame? e := by
    intro e hne hnot
    rw [hframe, if_neg hnot, if_neg (Ne.symm hne)]
  exact
    { chain := hc.chain hac
      last := by rw [← hc.frames, getLast?_dataFrames hac hc.on]
      links := h.sameLinks_stripMask mask
      bound := hc.names
      own := hmask
      notMask := by
        show ((h.stripMask mask).local? mask .maskFlag).isSome = false
        rw [hmask, if_pos (by decide)]
        rfl
      data := by
        intro e he
        rw [bindings, hframe, if_pos he]
        rcases h.frame? e with _ | fr <;> rfl
      others := hothers
      above := by
        intro e he
        obtain ⟨hmaskOff, hnodup⟩ := List.nodup_cons.1 (hc.nodup hac)
        refine hothers e ?_ fun hin => (List.nodup_append.1 hnodup).2.2 e hin e he rfl
        rintro rfl
        exact hmaskOff (List.mem_append_right _ he) }

end Heap

/-! ## What a program does -/

/-- The evaluations, those against data in the mask alone, and all that is done to bindings
other than those of the mask's own names. The program does not let the mask go. -/
def Act.spares (mask : EnvId) : Act → Bool
  | .take _ => true
  | .letGo e | .clear e => e ≠ mask
  | .bind e name _ | .unbind e name => e ≠ mask || name ∉ maskNames
  | .eval _ _ | .evalTilde _ _ _ | .toFormula _ _ => true
  | .evalWithData _ (.env e) _ => e = mask
  | _ => false

namespace Host

/-- The program holds a data mask over the frames from `bottom` to `top`. -/
structure Wears (s : Host) (mask bottom top : EnvId) (frames : List EnvId) : Prop where
  acyclic : s.state.heap.Acyclic
  settled : s.state.heap.Settled s.holds
  own : mask ∈ s.own
  covers : s.state.heap.Covers mask bottom top frames

variable {s : Host} {mask bottom top : EnvId} {frames : List EnvId}

theorem mem_holds_of_own (hown : mask ∈ s.own) : mask ∈ s.holds :=
  List.mem_cons_of_mem _ (List.mem_cons_of_mem _ (List.mem_append_left _ hown))

/-- A mask that is held wears on when what nothing holds dies. -/
theorem wears_settle (hac : s.state.heap.Acyclic) (hown : mask ∈ s.own)
    (hc : s.state.heap.Covers mask bottom top frames) : s.settle.Wears mask bottom top frames where
  acyclic := Heap.acyclic_sweep hac s.holds
  settled := Heap.settled_sweep s.state.heap s.holds
  own := hown
  covers := hc.sweep hac (mem_holds_of_own hown)

/-- A change of bindings that spares the names of the mask. -/
theorem wears_settle_of_sameLinks (hs : s.Wears mask bottom top frames) {h : Heap}
    (hsame : s.state.heap.SameLinks h)
    (hlocal : ∀ n ∈ maskNames, h.local? mask n = s.state.heap.local? mask n) {own : List EnvId}
    (hown : mask ∈ own) : (settle { s.withHeap h with own }).Wears mask bottom top frames :=
  wears_settle (s := { s.withHeap h with own }) (hsame.acyclic hs.acyclic) hown
    (hs.covers.sameLinks hs.acyclic hsame hlocal)

/-- So does one that is there when an evaluation ends. -/
theorem wears_evaluate (hs : s.Wears mask bottom top frames) (handles : List EnvId)
    {x : EvalM Value} {h : Heap}
    (hheap : (x { s.state with held := handles ++ s.holds }).2.heap = h) (hac : h.Acyclic)
    (hc : h.Covers mask bottom top frames) : (s.evaluate handles x).Wears mask bottom top frames := by
  subst hheap
  exact wears_settle (s := { s with state := (x _).2, own := _ }) hac
    (List.mem_append_right _ hs.own) hc

/-- An evaluation gives back the scope graph that it found. -/
theorem wears_evaluate_of_putsBack (hs : s.Wears mask bottom top frames) (handles : List EnvId)
    {x : EvalM Value} (hx : PutsBack x) : (s.evaluate handles x).Wears mask bottom top frames := by
  have hset : s.state.heap.Settled (handles ++ s.holds) :=
    Heap.settled_of_subset hs.settled (List.subset_append_right _ _)
  exact wears_evaluate hs handles (hx { s.state with held := handles ++ s.holds } hset).heap
    hs.acyclic hs.covers

/-- One in the mask itself points it first, or is refused. -/
theorem wears_evaluate_withData (mode : Mode) (hs : s.Wears mask bottom top frames)
    (handles : List EnvId) (code : Value) (env : EnvId) :
    (s.evaluate handles (evalWithData mode code (.env mask) env)).Wears mask bottom top frames := by
  have hheap := heap_evalWithData_of_isMask mode code env
    (s := { s.state with held := handles ++ s.holds }) hs.covers.isMask hs.covers.topEnv
  by_cases hcyc : s.state.heap.hasAncestor (code.scopeOr env) top
  · rw [if_pos hcyc] at hheap
    exact wears_evaluate hs handles hheap hs.acyclic hs.covers
  · rw [if_neg hcyc] at hheap
    have hac := Heap.acyclic_pointAt hs.acyclic (Bool.eq_false_iff.2 hcyc) mask
    have hheld : mask ∈ handles ++ s.holds := List.mem_append_right _ (mem_holds_of_own hs.own)
    exact wears_evaluate hs handles hheap (Heap.acyclic_sweep hac _)
      ((hs.covers.pointAt hs.acyclic hcyc).sweep hac hheld)

/-- Each thing that is done keeps the mask, and the frames of data under it. -/
theorem wears_after (mode : Mode) (hs : s.Wears mask bottom top frames) {act : Act}
    (hspares : act.spares mask) : (s.after mode act).Wears mask bottom top frames := by
  have hother : ∀ {e name n}, (e ≠ mask || name ∉ maskNames) = true → n ∈ maskNames →
      ¬ (e = mask ∧ name = n) := by
    rintro e name n hor hn ⟨rfl, rfl⟩
    simp [hn] at hor
  cases act with
  | take e =>
    exact wears_settle (s := { s with own := e :: s.own }) hs.acyclic
      (List.mem_cons_of_mem e hs.own) hs.covers
  | letGo e =>
    have hne : mask ≠ e := Ne.symm (of_decide_eq_true hspares)
    exact wears_settle (s := { s with own := s.own.erase e }) hs.acyclic
      ((List.mem_erase_of_ne hne).2 hs.own) hs.covers
  | bind e name v =>
    refine wears_settle_of_sameLinks hs (Heap.sameLinks_bind _ e name v) (fun n hn => ?_) hs.own
    rw [Heap.local?_bind, if_neg fun hc => hother hspares hn ⟨hc.1, hc.2.2⟩]
  | unbind e name =>
    refine wears_settle_of_sameLinks hs (Heap.sameLinks_unbind _ e name) (fun n hn => ?_)
      (List.mem_append_right _ hs.own)
    rw [Heap.local?_unbind, if_neg (hother hspares hn)]
  | clear e =>
    have hne : e ≠ mask := of_decide_eq_true hspares
    refine wears_settle_of_sameLinks hs (Heap.sameLinks_clear _ e) (fun n hn => ?_) hs.own
    rw [Heap.local?_clear, if_neg hne]
  | eval e env => exact wears_evaluate_of_putsBack hs _ (e.putsBack_eval mode env)
  | evalTilde v overscope t =>
    exact wears_evaluate_of_putsBack hs _ (v.putsBack_evalTilde mode overscope t)
  | toFormula v env => exact wears_evaluate_of_putsBack hs _ (v.putsBack_toFormula mode env)
  | evalWithData code data env =>
    cases data with
    | env e =>
      obtain rfl : e = mask := of_decide_eq_true hspares
      exact wears_evaluate_withData mode hs _ code env
    | _ => cases hspares
  | _ => cases hspares

/-! ## Runs -/

theorem wears_met (mode : Mode) (hs : s.Wears mask bottom top frames) {acts : List Act}
    (hspares : ∀ act ∈ acts, act.spares mask) :
    ∀ t ∈ s.met mode acts, t.Wears mask bottom top frames := by
  induction acts generalizing s with
  | nil =>
    intro t ht
    rw [List.mem_singleton.1 ht]
    exact hs
  | cons act acts ih =>
    rw [List.forall_mem_cons] at hspares
    exact List.forall_mem_cons.2 ⟨hs, ih (wears_after mode hs hspares.1) hspares.2⟩

/-- The program with a new mask, which it holds. -/
def wearing (s : Host) (mask : EnvId) (h : Heap) : Host :=
  settle { s.withHeap h with own := mask :: s.own }

/-- To strip the mask ends, strips it of its names, and empties the frames of data and no
other frame. -/
structure Strips (mode : Mode) (s : Host) (mask top : EnvId) (frames : List EnvId) : Prop where
  ends : ∀ out, Runs mode (.strip mask) s.state out ↔
    out = (.ok (), { s.state with heap := s.state.heap.stripMask mask })
  stripsTo : s.state.heap.StripsTo mask top frames (s.state.heap.stripMask mask)

/-- A data mask is built, over any frames or for any data. Then a program evaluates in it as
often as it likes, whether that succeeds or not, and writes its own bindings. Whenever it strips
the mask, this empties the frames that the mask was built over, up to the top one. -/
theorem strips_throughout (mode : Mode) {s : Host} (hac : s.state.heap.Acyclic)
    (hc : s.state.heap.Closed) {mask : EnvId} {h : Heap} (hm : s.state.heap.MakesMask mask h)
    {acts : List Act} (hspares : ∀ act ∈ acts, act.spares mask) :
    ∃ bottom top, h.Link mask bottom ∧ h.local? mask .topEnv = some (.env top) ∧
      ∀ t ∈ (s.wearing mask h).met mode acts,
        t.Strips mode mask top (h.dataFrames bottom top) := by
  obtain ⟨hac', bottom, top, frames, hcovers⟩ := hm.covers hac hc
  refine ⟨bottom, top, hcovers.link, hcovers.topEnv, fun t ht => ?_⟩
  have hstart : (s.wearing mask h).Wears mask bottom top frames :=
    wears_settle (s := { s.withHeap h with own := mask :: s.own }) hac' (List.mem_cons_self ..)
      hcovers
  have hend := wears_met mode hstart hspares t ht
  rw [hcovers.frames]
  exact ⟨runs_iff (p := .strip mask)
    (x := fun s => (.ok (), { s with heap := s.heap.stripMask mask }))
    (runs_strip hend.acyclic mask), hend.covers.stripsTo hend.acyclic⟩

/-- A mask ⟨5⟩ is built over two frames of the sample, ⟨3⟩ and ⟨2⟩. A name of the program is
bound in it, and code is evaluated in it, at last in the global environment. -/
def wornRun : List Act :=
  [.bind ⟨5⟩ ⟨14⟩ (.int 9), .eval (.symbol ⟨13⟩) ⟨5⟩,
    .evalTilde Formula.sample.toValue ⟨5⟩ ⟨2⟩, .evalWithData (.code (.symbol ⟨12⟩)) (.env ⟨5⟩) .global]

/-- At any time the two frames are those that are emptied, and the mask keeps the name ⟨14⟩. -/
theorem strips_throughout_wornRun :
    let s : Host := ⟨.sample, [⟨4⟩], []⟩
    let h := (s.state.heap.addMask ⟨3⟩ ⟨2⟩ .global).2
    s.state.heap.Acyclic ∧ s.state.heap.Closed ∧ s.state.heap.MakesMask ⟨5⟩ h ∧
      (∀ act ∈ wornRun, act.spares ⟨5⟩) ∧
      ((s.wearing ⟨5⟩ h).met .unlimited wornRun).map (·.state.heap.parent? ⟨2⟩) =
        [some .base, some .base, some .base, some .base, some .global] ∧
      ∀ t ∈ (s.wearing ⟨5⟩ h).met .unlimited wornRun,
        t.Strips .unlimited ⟨5⟩ ⟨2⟩ [⟨3⟩, ⟨2⟩] := by
  intro s h
  have hac : s.state.heap.Acyclic := by decide +kernel
  have hc : s.state.heap.Closed := by decide +kernel
  have hm : s.state.heap.MakesMask ⟨5⟩ h := by
    have hon : s.state.heap.hasAncestor ⟨3⟩ ⟨2⟩ = true := by decide +kernel
    refine .overFrames (some ⟨3⟩) (some ⟨2⟩) .global (fun b hb => ?_) (by decide +kernel)
      (Heap.maskOver_some hon .global)
    rw [← Option.some.inj hb]
    decide +kernel
  have hspares : ∀ act ∈ wornRun, act.spares ⟨5⟩ := by decide +kernel
  have hlink : h.parent? ⟨5⟩ = some ⟨3⟩ := by decide +kernel
  have htop : h.local? ⟨5⟩ .topEnv = some (.env ⟨2⟩) := rfl
  obtain ⟨bottom, top, hbottom, htop', hstrips⟩ :=
    strips_throughout .unlimited hac hc hm hspares
  rw [htop] at htop'
  cases htop'
  rw [hbottom.eq hlink, show h.dataFrames ⟨3⟩ ⟨2⟩ = [⟨3⟩, ⟨2⟩] by decide +kernel] at hstrips
  exact ⟨hac, hc, hm, hspares, by decide +kernel, hstrips⟩

end Host

end Overscope
