-- What a name means while a quosure is evaluated in an overscope. The frames from the
-- overscope to its top one come first, then the chain of the quosure's own scope as it
-- was before. What lay above the top frame is met only where it lies on that chain too.
import Overscope.Proofs.OwnMask
import Overscope.Proofs.Steps

namespace Overscope

namespace Heap

/-! ## Parts of a chain -/

/-- What holds of a frame without a parent, and of a frame when it holds of its parent,
holds of every frame. -/
theorem chain_induction {h : Heap} (hac : h.Acyclic) {P : EnvId → Prop}
    (root : ∀ e, h.parent? e = none → P e) (link : ∀ e p, h.Link e p → P p → P e) (e : EnvId) :
    P e := by
  induction hchain : h.chain e generalizing e with
  | nil => cases (hchain ▸ h.head?_chain e : ([] : List EnvId).head? = some e)
  | cons f rest ih =>
    rcases hp : h.parent? e with _ | p
    · exact root e hp
    · rw [chain_of_link hac hp] at hchain
      exact link e p hp (ih p (List.cons.inj hchain).2)

theorem hasAncestor_of_link {h : Heap} (hac : h.Acyclic) {e p top : EnvId} (hp : h.Link e p)
    (hne : e ≠ top) : h.hasAncestor e top = h.hasAncestor p top := by
  rw [hasAncestor, chain_of_link hac hp, List.contains_cons, hasAncestor,
    beq_eq_false_iff_ne.2 hne.symm, Bool.false_or]

/-- What holds of a frame, and of each frame below it when it holds of the parent, holds of all
frames that have it on their chain. -/
@[elab_as_elim]
theorem hasAncestor_induction {h : Heap} (hac : h.Acyclic) {top : EnvId} {P : EnvId → Prop}
    (self : P top)
    (link : ∀ e p, h.Link e p → e ≠ top → h.hasAncestor e top → P p → P e) {e : EnvId}
    (ha : h.hasAncestor e top) : P e := by
  induction e using chain_induction hac with
  | root e hr =>
    rw [hasAncestor_iff, chain_of_root hr, List.mem_singleton] at ha
    rw [← ha]
    exact self
  | link e p hp ih =>
    by_cases hne : e = top
    · rw [hne]
      exact self
    · exact link e p hp hne ha (ih ((hasAncestor_of_link hac hp hne).symm.trans ha))

theorem dataFrames_of_link {h : Heap} (hac : h.Acyclic) {e p top : EnvId} (hp : h.Link e p)
    (hne : e ≠ top) (ha : h.hasAncestor e top) :
    h.dataFrames e top = e :: h.dataFrames p top := by
  rw [dataFrames, dataFrames, if_pos ha, if_pos ((hasAncestor_of_link hac hp hne).symm.trans ha)]
  simp only [chain_of_link hac hp, List.idxOf_cons_ne _ hne, List.take_succ_cons]

/-- A chain through a frame is what leads up to it, the frame itself included, and then
the rest of its own chain. -/
theorem chain_eq_dataFrames_append {h : Heap} (hac : h.Acyclic) {e top : EnvId}
    (ha : h.hasAncestor e top) :
    h.chain e = h.dataFrames e top ++ (h.chain top).tail := by
  refine hasAncestor_induction hac ?_ (fun e p hp hne ha ih => ?_) ha
  · rw [dataFrames_self]
    rfl
  · rw [dataFrames_of_link hac hp hne ha, chain_of_link hac hp, ih, List.cons_append]

/-! ## A chain under another parent link -/

/-- A chain without the frame whose parent link is rewired is what it was. -/
theorem chain_setParent_of_off {h : Heap} {top e : EnvId} (he : ¬ h.hasAncestor e top)
    (target : Option EnvId) : (h.setParent top target).chain e = h.chain e := by
  rw [chain, chain, setParent, size_modify, ← setParent]
  refine chainUpTo_congr fun f hf => ?_
  rw [parent?_setParent, if_neg]
  rintro rfl
  exact he (hasAncestor_iff.2 hf)

/-- A frame whose parent link is rewired goes on in the chain of the new parent, which is
what it was, since a link that closes no cycle does not lead back to the frame. -/
theorem chain_setParent_self {h : Heap} (hac : h.Acyclic) {top : EnvId} {target : Option EnvId}
    (hac' : (h.setParent top target).Acyclic) (hl : h.isLive top) :
    (h.setParent top target).chain top = top :: (target.map h.chain).getD [] := by
  cases target with
  | none =>
    have hroot : (h.setParent top none).parent? top = none := by
      rw [parent?_setParent, if_pos rfl, if_pos hl]
    rw [chain_of_root hroot]
    rfl
  | some target =>
    have hlink : (h.setParent top (some target)).Link top target :=
      link_setParent_iff.2 (Or.inl ⟨rfl, hl, rfl⟩)
    have hoff : ¬ h.hasAncestor target top := fun ha =>
      hac' top (transGen_setParent_self hac hl ha)
    rw [chain_of_link hac' hlink, chain_setParent_of_off hoff]
    rfl

/-- A chain through a frame whose parent link is rewired keeps what leads up to the frame,
and goes on in the chain of the new parent. -/
theorem chain_setParent {h : Heap} (hac : h.Acyclic) {top e : EnvId} {target : Option EnvId}
    (hac' : (h.setParent top target).Acyclic) (hl : h.isLive top) (he : h.hasAncestor e top) :
    (h.setParent top target).chain e =
      h.dataFrames e top ++ (target.map h.chain).getD [] := by
  refine hasAncestor_induction hac ?_ (fun e p hp hne ha ih => ?_) he
  · rw [chain_setParent_self hac hac' hl, dataFrames_self]
    rfl
  · have hlink : (h.setParent top target).Link e p := link_setParent_iff.2 (Or.inr ⟨hne, hp⟩)
    rw [chain_of_link hac' hlink, ih, dataFrames_of_link hac hp hne ha, List.cons_append]

/-! ## The frames and bindings of a splice -/

/-- The frames on which a name is looked up while the scope `target` is spliced into an
overscope: those from the overscope to its top one, and those of the scope. -/
def splicePath (h : Heap) (overscope top target : EnvId) : List EnvId :=
  h.dataFrames overscope top ++ h.chain target

/-- What a frame binds meanwhile: in an overscope that is a data mask, `.env` is the
scope that is spliced in. -/
def spliceLocal? (h : Heap) (overscope target e : EnvId) (name : Name) : Option Value :=
  if h.isMask overscope ∧ e = overscope ∧ name = .env then some (.env target)
  else h.local? e name

/-- The first binding on the way that is accepted. -/
def spliceWhere? (h : Heap) (overscope top target : EnvId) (name : Name)
    (accept : Value → Bool) : Option Value :=
  (h.splicePath overscope top target).findSome? fun e =>
    (h.spliceLocal? overscope target e name).filter accept

/-- What lay above the top frame, and does not lie on the chain of the scope, is not on
the way. -/
theorem not_mem_splicePath {h : Heap} (hac : h.Acyclic) {overscope top target e : EnvId}
    (ha : h.hasAncestor overscope top) (he : e ∈ (h.chain top).tail)
    (hoff : e ∉ h.chain target) : e ∉ h.splicePath overscope top target := by
  have hnodup := nodup_chainUpTo hac (h.size + 1) overscope
  rw [← chain, chain_eq_dataFrames_append hac ha] at hnodup
  intro hmem
  rcases List.mem_append.1 hmem with hbelow | habove
  · exact (List.nodup_append.1 hnodup).2.2 e hbelow e he rfl
  · exact hoff habove

/-- In a data mask `.env` is the scope that is spliced in, since the overscope is the
first frame on the way. -/
theorem spliceWhere?_env {h : Heap} (hac : h.Acyclic) {overscope top target : EnvId}
    (hm : h.isMask overscope) (ha : h.hasAncestor overscope top) :
    h.spliceWhere? overscope top target .env (fun _ => true) = some (.env target) := by
  obtain ⟨rest, hway⟩ : ∃ rest, h.splicePath overscope top target = overscope :: rest := by
    rcases hp : h.parent? overscope with _ | p
    · rw [hasAncestor_iff, chain_of_root hp, List.mem_singleton] at ha
      rw [splicePath, ha, dataFrames_self]
      exact ⟨_, rfl⟩
    by_cases hne : overscope = top
    · rw [splicePath, hne, dataFrames_self]
      exact ⟨_, rfl⟩
    · rw [splicePath, dataFrames_of_link hac hp hne ha]
      exact ⟨_, rfl⟩
  rw [spliceWhere?, hway, List.findSome?_cons, spliceLocal?, if_pos ⟨hm, rfl, rfl⟩]
  rfl

end Heap

/-! ## The state of a splice -/

namespace State

variable {s : State} {overscope top target : EnvId}

theorem view_spliced (s : State) (overscope top target : EnvId) :
    (s.spliced overscope top target).heap.view = s.heap.view.splice overscope top target := by
  unfold spliced View.splice
  rw [Heap.isMask_view]
  split
  · exact (Heap.view_setParent _ top target).trans (by rw [rebound, guarded, Heap.view_bind])
  · exact Heap.view_setParent s.heap top target

theorem memo_spliced (s : State) (overscope top target : EnvId) :
    (s.spliced overscope top target).memo = s.memo := by
  unfold spliced
  split <;> rfl

theorem sound_spliced (hs : s.Sound) (ht : ¬ s.heap.hasAncestor target top) :
    (s.spliced overscope top target).Sound where
  acyclic := by
    unfold spliced
    split
    · refine Heap.acyclic_setParent (Heap.acyclic_bind hs.acyclic overscope .env _) ?_
      exact fun ha => ht (((Heap.sameLinks_bind ..).hasAncestor target top).symm.trans ha)
    · exact Heap.acyclic_setParent hs.acyclic ht
  settled := settled_spliced hs.settled overscope top target

theorem parent?_spliced (s : State) (overscope top target e : EnvId) :
    (s.spliced overscope top target).heap.parent? e =
      if top = e ∧ s.heap.isLive e then some target else s.heap.parent? e := by
  show (s.spliced overscope top target).heap.view.parent? e = _
  rw [view_spliced, View.parent?_splice]
  rfl

theorem chain_spliced (hs : s.Sound) (hl : s.heap.isLive top)
    (ht : ¬ s.heap.hasAncestor target top) (ha : s.heap.hasAncestor overscope top) :
    (s.spliced overscope top target).heap.chain overscope =
      s.heap.splicePath overscope top target := by
  -- The chains are those of the graph in which the parent link alone is another one.
  have hlinks : ∀ e, (s.spliced overscope top target).heap.parent? e =
      (s.heap.setParent top (some target)).parent? e := by
    intro e
    rw [Heap.parent?_setParent, parent?_spliced]
    by_cases he : top = e
    · subst he
      simp [hl]
    · simp [he]
  have hlive : ∀ e, (s.spliced overscope top target).heap.isLive e =
      (s.heap.setParent top (some target)).isLive e := by
    intro e
    show (s.spliced overscope top target).heap.view.isLive e = _
    rw [view_spliced, View.isLive_splice, Heap.setParent, Heap.isLive_modify]
    rfl
  have hsize : (s.spliced overscope top target).heap.size =
      (s.heap.setParent top (some target)).size := by
    unfold spliced
    split <;> simp [rehung, rebound, guarded, Heap.setParent, Heap.bind]
  have hsame : (s.heap.setParent top (some target)).SameLinks
      (s.spliced overscope top target).heap := ⟨hsize, hlive, hlinks⟩
  rw [hsame.chain, Heap.chain_setParent hs.acyclic (Heap.acyclic_setParent hs.acyclic ht) hl ha]
  rfl

theorem local?_spliced (s : State) (overscope top target e : EnvId) (name : Name) :
    (s.spliced overscope top target).heap.local? e name =
      s.heap.spliceLocal? overscope target e name := by
  show (s.spliced overscope top target).heap.view.local? e name = _
  rw [view_spliced, View.local?_splice, Heap.isMask_view, Heap.spliceLocal?]
  by_cases hm : s.heap.isMask overscope
  · have hlive : s.heap.view.isLive overscope := Heap.isLive_of_hasLocal hm
    by_cases he : overscope = e
    · subst he
      simp only [hm, hlive, true_and, eq_comm]
      rfl
    · simp only [he, Ne.symm he, false_and, and_false, if_false]
      rfl
  · simp only [hm, false_and, if_false, Bool.false_eq_true]
    rfl

/-- Names are looked up along the way of the splice. -/
theorem resolveWhere?_spliced (hs : s.Sound) (hl : s.heap.isLive top)
    (ht : ¬ s.heap.hasAncestor target top) (ha : s.heap.hasAncestor overscope top) (name : Name)
    (accept : Value → Bool) :
    (s.spliced overscope top target).heap.resolveWhere? overscope name accept =
      s.heap.spliceWhere? overscope top target name accept := by
  rw [Heap.resolveWhere?, chain_spliced hs hl ht ha, Heap.spliceWhere?]
  simp only [local?_spliced]

end State

/-! ## What is looked up in a splice -/

/-- What a call does once its head stands for something. -/
def CallSite.dispatch (mode : Mode) (site : CallSite) (env : EnvId) : Callable → EvalM Value
  | .builtin p => site.apply env p
  | .override t => do
    let (mask, top) ← t.frames
    site.overridden mode mask top

theorem CallSite.eval_eq_dispatch (mode : Mode) (site : CallSite) (env : EnvId) :
    site.eval mode env = nested mode (site.head.resolve env >>= site.dispatch mode env) := by
  rfl

/-- The outcome of a search for a name. -/
def found {α : Type} (e : EvalError) : Option α → Except EvalError α
  | some a => .ok a
  | none => .error e

theorem Head.resolve_run (name : Name) (env : EnvId) (s : State) :
    (Head.symbol name).resolve env s =
      (found (.undefinedFunction (s.interner.text name))
        ((s.heap.resolveWhere? env name Value.isCallable).bind Value.callable?), s) := by
  simp only [Head.resolve, Attempt.bind_run, Attempt.read]
  rcases (s.heap.resolveWhere? env name Value.isCallable).bind Value.callable? with _ | c <;> rfl

/-- In a mask `~` is the override that the mask binds itself. -/
theorem resolve_tilde_of_override {mask top : EnvId} {s : State}
    (hown : s.heap.local? mask .tilde = some (.override ⟨mask, top⟩)) :
    (Head.symbol .tilde).resolve mask s = (.ok (.override ⟨mask, top⟩), s) := by
  rw [Head.resolve_run, Heap.resolveWhere?_of_local? hown rfl]
  rfl

/-- A head that stands for something stands for it wherever the scope graph is the same. -/
theorem Head.resolve_of_heap {head : Head} {env : EnvId} {s t : State} {c : Callable}
    (hheap : t.heap = s.heap) (hc : (head.resolve env s).1 = .ok c) :
    head.resolve env t = (.ok c, t) := by
  cases head with
  | inlined p =>
    cases hc
    rfl
  | symbol name =>
    rw [Head.resolve_run] at hc ⊢
    rw [hheap]
    rcases hv : (s.heap.resolveWhere? env name Value.isCallable).bind Value.callable? with _ | c'
    · rw [hv] at hc
      cases hc
    · rw [hv] at hc
      cases hc
      rfl

theorem Expr.eval_symbol_run (mode : Mode) (name : Name) (env : EnvId) (s : State) :
    (Expr.symbol name).eval mode env s =
      (found (.undefinedVariable (s.interner.text name))
        (s.heap.resolveWhere? env name fun _ => true), s) := by
  simp only [Expr.eval, Attempt.bind_run, Attempt.read, Heap.resolve?_eq_resolveWhere?]
  rcases s.heap.resolveWhere? env name (fun _ => true) with _ | v <;> rfl

section
variable {s : State} (hs : s.Sound) (mode : Mode) {overscope top target : EnvId}
include hs

/-- A quosure over a symbolic expression checks the top frame, then its own scope, and
then runs the expression under the splice. -/
theorem evalTilde_symbolic {e : Expr} (he : e.isSymbolic) (own : Option EnvId) :
    (Formula.quosure e own).toValue.evalTilde mode overscope top s =
      s.onMemo (if !s.heap.hasAncestor overscope top then .fail .notAnAncestor
        else targetIn s.heap.view own overscope >>= fun target =>
          if s.heap.hasAncestor target top then .fail .cyclicScope
          else e.evalIn (s.heap.view.splice overscope top target) (mode.allowance s.depth)
            overscope) := by
  rw [Value.evalTilde_eq_onMemo hs, Formula.evalTildeIn_of_rhs rfl rfl he,
    Heap.hasAncestor_view hs.acyclic]
  simp only [Heap.hasAncestor_view hs.acyclic]
  rfl

/-- Without the top frame on the chain of the overscope nothing is run. -/
theorem evalTilde_off_chain (ha : ¬ s.heap.hasAncestor overscope top) {e : Expr}
    (he : e.isSymbolic) (own : Option EnvId) :
    (Formula.quosure e own).toValue.evalTilde mode overscope top s =
      (.error .notAnAncestor, s) := by
  rw [evalTilde_symbolic hs mode he, Bool.eq_false_iff.2 ha]
  rfl

/-- A scope that has the top frame on its chain is refused. -/
theorem evalTilde_cyclic (ha : s.heap.hasAncestor overscope top)
    (ht : s.heap.hasAncestor target top) {e : Expr} (he : e.isSymbolic) :
    (Formula.quosure e (some target)).toValue.evalTilde mode overscope top s =
      (.error .cyclicScope, s) := by
  rw [evalTilde_symbolic hs mode he, ha]
  simp only [targetIn, pure_bind, ht, if_true, Bool.not_true, Bool.false_eq_true, if_false]
  rfl

/-- Any other scope is spliced in, and all that stays of the evaluation is what it
learned. -/
theorem evalTilde_spliced (ha : s.heap.hasAncestor overscope top)
    (ht : ¬ s.heap.hasAncestor target top) {e : Expr} (he : e.isSymbolic) :
    (Formula.quosure e (some target)).toValue.evalTilde mode overscope top s =
      ((e.eval mode overscope (s.spliced overscope top target)).1,
        s.withMemo (e.eval mode overscope (s.spliced overscope top target)).2.memo) := by
  have hsound : (s.spliced overscope top target).Sound := State.sound_spliced hs ht
  have hinner := follows_eval mode e overscope _ hsound
  simp only [State.view_spliced, State.depth_spliced, State.onMemo, State.memo_spliced] at hinner
  rw [evalTilde_symbolic hs mode he, ha, hinner]
  simp only [targetIn, pure_bind, ht, Bool.not_true, Bool.false_eq_true, if_false]
  rfl

/-- A name is its first binding on the way. -/
theorem evalTilde_symbol (hl : s.heap.isLive top) (ha : s.heap.hasAncestor overscope top)
    (ht : ¬ s.heap.hasAncestor target top) (name : Name) :
    (Formula.quosure (.symbol name) (some target)).toValue.evalTilde mode overscope top s =
      (found (.undefinedVariable (s.interner.text name))
        (s.heap.spliceWhere? overscope top target name fun _ => true), s) := by
  have htext : (s.spliced overscope top target).interner = s.interner :=
    congrArg Memo.interner (s.memo_spliced overscope top target)
  rw [evalTilde_spliced hs mode ha ht rfl, Expr.eval_symbol_run,
    State.resolveWhere?_spliced hs hl ht ha, htext, State.memo_spliced]
  rfl

/-- So the scope is refused for that reason alone. -/
theorem evalTilde_symbol_cyclic_iff (hl : s.heap.isLive top)
    (ha : s.heap.hasAncestor overscope top) (name : Name) :
    ((Formula.quosure (.symbol name) (some target)).toValue.evalTilde mode overscope top s).1 =
      .error .cyclicScope ↔ s.heap.hasAncestor target top := by
  refine ⟨fun hcyc => ?_, fun ht => by rw [evalTilde_cyclic hs mode ha ht rfl]⟩
  by_contra ht
  rw [evalTilde_symbol hs mode hl ha ht] at hcyc
  revert hcyc
  rcases s.heap.spliceWhere? overscope top target name (fun _ => true) with _ | v <;>
    simp [found]

end

/-- A call goes on with what its head stands for, and one call deeper that is the same as long
as the scope graph and the texts are. -/
theorem Expr.eval_call_of_resolve {mode : Mode} {env : EnvId} {u : State} {name : Name}
    {answer : Except EvalError Callable}
    (hanswer : ∀ w : State, w.heap = u.heap → w.interner = u.interner →
      (Head.symbol name).resolve env w = (answer, w)) (args : Args) :
    (Expr.call (.symbol name) args).eval mode env u =
      nested mode (.ofExcept answer >>=
        (CallSite.mk (.symbol name) (args.operands mode) none).dispatch mode env) u := by
  show (CallSite.mk (.symbol name) (args.operands mode) none).eval mode env u = _
  rw [CallSite.eval_eq_dispatch]
  have hstep : (Head.symbol name).resolve env { u with depth := u.depth + 1 } =
      Attempt.ofExcept answer { u with depth := u.depth + 1 } := hanswer _ rfl rfl
  cases mode with
  | unlimited => simp only [nested, Mode.limit?, nested.deeper, Attempt.bind_run, hstep]
  | restricted limit => simp only [nested, Mode.limit?, nested.deeper, Attempt.bind_run, hstep]

/-- The evaluation of a quosure with the scope `target` in an overscope that has the top
frame on its chain. -/
structure State.Splices (mode : Mode) (s : State) (overscope top target : EnvId) : Prop where
  /-- A name or a call is refused if the top frame is the scope or an ancestor of it. -/
  refused : s.heap.hasAncestor target top → ∀ e : Expr, e.isSymbolic →
    (Formula.quosure e (some target)).toValue.evalTilde mode overscope top s =
      (.error .cyclicScope, s)
  /-- There is no other reason to refuse a name. -/
  cyclicScope_iff : ∀ name,
    ((Formula.quosure (.symbol name) (some target)).toValue.evalTilde mode overscope top s).1 =
      .error .cyclicScope ↔ s.heap.hasAncestor target top
  /-- A name is its first binding on the way. -/
  symbol : ¬ s.heap.hasAncestor target top → ∀ name,
    (Formula.quosure (.symbol name) (some target)).toValue.evalTilde mode overscope top s =
      (found (.undefinedVariable (s.interner.text name))
        (s.heap.spliceWhere? overscope top target name fun _ => true), s)
  /-- In a data mask `.env` is the scope. -/
  env : ¬ s.heap.hasAncestor target top → s.heap.isMask overscope →
    (Formula.quosure (.symbol .env) (some target)).toValue.evalTilde mode overscope top s =
      (.ok (.env target), s)
  /-- What was above the top frame is not on the way, unless it is on that of the scope. -/
  beyond : ∀ e ∈ (s.heap.chain top).tail, e ∉ s.heap.chain target →
    e ∉ s.heap.splicePath overscope top target
  /-- Any expression runs in the overscope, with the scope spliced in. -/
  run : ¬ s.heap.hasAncestor target top → ∀ e : Expr, e.isSymbolic →
    (Formula.quosure e (some target)).toValue.evalTilde mode overscope top s =
      ((e.eval mode overscope (s.spliced overscope top target)).1,
        s.withMemo (e.eval mode overscope (s.spliced overscope top target)).2.memo)
  /-- There the head of a call stands for the first callable binding on the way. -/
  head : ¬ s.heap.hasAncestor target top → ∀ u : State,
    u.heap = (s.spliced overscope top target).heap → ∀ name,
      (Head.symbol name).resolve overscope u =
        (found (.undefinedFunction (u.interner.text name))
          ((s.heap.spliceWhere? overscope top target name Value.isCallable).bind
            Value.callable?), u)
  /-- So a call goes on with that binding, or fails. -/
  call : ¬ s.heap.hasAncestor target top → ∀ u : State,
    u.heap = (s.spliced overscope top target).heap → ∀ name args,
      (Expr.call (.symbol name) args).eval mode overscope u =
        nested mode (.ofExcept (found (.undefinedFunction (u.interner.text name))
            ((s.heap.spliceWhere? overscope top target name Value.isCallable).bind
              Value.callable?)) >>=
          (CallSite.mk (.symbol name) (args.operands mode) none).dispatch mode overscope) u

/-- What a name and the head of a call mean in a quosure that is evaluated in an
overscope. Off the chain of the overscope no top frame is let in, whatever the scope. -/
theorem evalTilde_lookup {s : State} (hs : s.Sound) (mode : Mode) {top : EnvId}
    (hl : s.heap.isLive top) (overscope : EnvId) :
    (¬ s.heap.hasAncestor overscope top → ∀ (e : Expr) (own : Option EnvId), e.isSymbolic →
      (Formula.quosure e own).toValue.evalTilde mode overscope top s =
        (.error .notAnAncestor, s)) ∧
    (s.heap.hasAncestor overscope top → ∀ target, s.Splices mode overscope top target) := by
  refine ⟨fun ha e own he => evalTilde_off_chain hs mode ha he own, fun ha target => ?_⟩
  have hhead : ¬ s.heap.hasAncestor target top → ∀ u : State,
      u.heap = (s.spliced overscope top target).heap → ∀ name,
        (Head.symbol name).resolve overscope u =
          (found (.undefinedFunction (u.interner.text name))
            ((s.heap.spliceWhere? overscope top target name Value.isCallable).bind
              Value.callable?), u) := by
    intro ht u hu name
    rw [Head.resolve_run, hu, State.resolveWhere?_spliced hs hl ht ha]
  exact
    { refused := fun ht e he => evalTilde_cyclic hs mode ha ht he
      cyclicScope_iff := evalTilde_symbol_cyclic_iff hs mode hl ha
      symbol := evalTilde_symbol hs mode hl ha
      env := by
        intro ht hm
        rw [evalTilde_symbol hs mode hl ha ht, Heap.spliceWhere?_env hs.acyclic hm ha]
        rfl
      beyond := fun e he hoff => Heap.not_mem_splicePath hs.acyclic ha he hoff
      run := fun ht e he => evalTilde_spliced hs mode ha ht he
      head := hhead
      call := by
        intro ht u hu name args
        refine Expr.eval_call_of_resolve (fun w hw htexts => ?_) args
        rw [hhead ht w (hw.trans hu), htexts] }

/-- In the sample mask, which goes on where `x = 30`, a quosure of the global environment
finds the `x` of that one, a quosure of the mask itself is refused, and so is any quosure
in an overscope without the top frame. -/
theorem evalTilde_lookup_sample :
    State.sample.Sound ∧ State.sample.heap.isLive ⟨3⟩ ∧
      State.sample.heap.splicePath ⟨4⟩ ⟨3⟩ .global = [⟨4⟩, ⟨3⟩, .global, .base] ∧
      (State.sample.heap.spliceWhere? ⟨4⟩ ⟨3⟩ .global ⟨12⟩ fun _ => true).map (· == .int 2) =
        some true ∧
      (Formula.quosure (.symbol ⟨12⟩) (some .global)).toValue.evalTilde .unlimited ⟨4⟩ ⟨3⟩
          .sample =
        (found (.undefinedVariable (State.sample.interner.text ⟨12⟩))
          (State.sample.heap.spliceWhere? ⟨4⟩ ⟨3⟩ .global ⟨12⟩ fun _ => true), .sample) ∧
      (Formula.quosure (.symbol ⟨12⟩) (some ⟨4⟩)).toValue.evalTilde .unlimited ⟨4⟩ ⟨3⟩ .sample =
        (.error .cyclicScope, .sample) ∧
      (Formula.quosure (.symbol ⟨12⟩) (some ⟨4⟩)).toValue.evalTilde .unlimited .global ⟨3⟩
          .sample =
        (.error .notAnAncestor, .sample) := by
  have hs := State.sound_sample
  have hl : State.sample.heap.isLive ⟨3⟩ := by decide
  have hon := (evalTilde_lookup hs .unlimited hl ⟨4⟩).2 (by decide)
  have hoff := (evalTilde_lookup hs .unlimited hl .global).1 (by decide)
  refine ⟨hs, hl, by decide +kernel, by decide +kernel, ?_, ?_, ?_⟩
  · exact (hon .global).symbol (by decide) ⟨12⟩
  · exact (hon ⟨4⟩).refused (by decide) (.symbol ⟨12⟩) rfl
  · exact hoff (.symbol ⟨12⟩) (some ⟨4⟩) rfl

end Overscope
