-- Evaluation with a mask of its own never fails because of the scope graph. All of it runs in
-- the mask, however its quosures are nested, and every `~` is that of the mask, whatever the
-- data and the scopes bind to it.
import Overscope.Proofs.DataEval
import Overscope.Proofs.InForce
import Overscope.Proofs.OwnMask

namespace Overscope

/-! ## Code whose formula objects are `~` calls -/

mutual

/-- Every formula object that can be evaluated has `~` for its head, or an operator. -/
def Expr.TildeFormulas : Expr → Prop
  | .const v => v.TildeFormulas
  | .call _ args => args.TildeFormulas
  | .symbol _ | .missing => True
termination_by structural e => e

def Value.TildeFormulas : Value → Prop
  | .formula head args _ _ => (∀ name, head = .symbol name → name = .tilde) ∧ args.TildeFormulas
  | _ => True
termination_by structural v => v

def Args.TildeFormulas : Args → Prop
  | .nil => True
  | .cons e rest => e.TildeFormulas ∧ rest.TildeFormulas
termination_by structural args => args

end

/-! ## Steps in the mask -/

section

variable {n : Nat} {mask top : EnvId} {s : State}

/-- In the mask a step fails for no reason of the scope graph, and all that it visits is
routed to the mask. -/
def StaysIn {α : Type} (n : Nat) (mask top : EnvId) (x : Traced α) : Prop :=
  Course (State.InForce n mask top) EvalError.InScope (Visit.Routed mask top) x

namespace State.InForce

/-- `~` means the override of the mask. -/
theorem resolve_tilde (hs : s.InForce n mask top) :
    (Head.symbol .tilde).resolve mask s = (.ok (.override ⟨mask, top⟩), s) := by
  simp only [Head.resolve, Attempt.bind_run, Attempt.read, hs.heap.resolveWhere?_tilde]
  rfl

/-- No head means another override. -/
theorem eq_of_resolve (hs : s.InForce n mask top) {head : Head} {t : Override}
    (ht : (head.resolve mask s).1 = .ok (.override t)) : t = ⟨mask, top⟩ := by
  cases head with
  | inlined p => cases ht
  | symbol name =>
    have hname : name = .tilde := by
      simp only [Head.resolve, Attempt.bind_run, Attempt.read] at ht
      rcases hv : s.heap.resolveWhere? mask name Value.isCallable with _ | v
      · rw [hv] at ht
        cases ht
      · refine hs.heap.eq_tilde_of_resolveWhere? hv ?_
        rw [hv] at ht
        cases v <;> cases ht
        rfl
    subst hname
    rw [hs.resolve_tilde] at ht
    cases ht
    rfl

/-- The frames of the override are alive. -/
theorem frames_run (hs : s.InForce n mask top) :
    Override.frames ⟨mask, top⟩ s = (.ok (mask, top), s) :=
  Override.frames_of_isLive hs.heap.isLive_mask hs.heap.isLive_top

/-- A quosure goes on in a frame that was there before the mask. -/
theorem targetScope_run (hs : s.InForce n mask top) {own : Option EnvId}
    (hown : ∀ e ∈ own, e.index < n) :
    ∃ e, targetScope own mask s = (.ok e, s) ∧ e.index < n := by
  cases own with
  | some e => exact ⟨e, rfl, hown e rfl⟩
  | none =>
    obtain ⟨e, he, hlt⟩ := hs.heap.scope
    refine ⟨e, ?_, hlt⟩
    simp only [targetScope, localEnv, Attempt.bind_run, Attempt.read, he]
    rfl

/-- A `~` call is routed, and so is a formula object with `~` or an operator in its head. -/
theorem routed (hs : s.InForce n mask top) {e : Expr}
    (he : e.isConst → ∀ name, e.head? = some (.symbol name) → name = .tilde) :
    Visit.Routed mask top ⟨e, mask, s⟩ := by
  refine ⟨rfl, fun name hname hwhich => ?_⟩
  have htilde : name = .tilde := hwhich.elim id fun hconst => he hconst name hname
  subst htilde
  rw [hs.resolve_tilde, hs.frames_run]
  exact ⟨rfl, rfl⟩

end State.InForce

theorem staysIn_frames {α : Type} {x : EnvId → EnvId → Traced α}
    (hback : ∀ mask top, PutsBack (x mask top).run) (hx : StaysIn n mask top (x mask top)) :
    StaysIn n mask top
      (.silent (Override.frames ⟨mask, top⟩) >>= fun frames => x frames.1 frames.2) := by
  have hframes : StaysIn n mask top (.silent (Override.frames ⟨mask, top⟩)) := by
    refine course_silent (putsBack_frames _) fun {s} hs {err} h => ?_
    rw [hs.frames_run] at h
    cases h
  refine course_bind_of_result (invariant_inForce n mask top) hframes
    (fun frames => hback frames.1 frames.2) fun frames ⟨s, hs, hrun⟩ => ?_
  rw [Traced.run_silent, hs.frames_run] at hrun
  cases hrun
  exact hx

/-! ## Calls -/

namespace TracedSite

variable {site : TracedSite} {mode : Mode} (hback : ∀ op ∈ site.bare.operands, op.PutsBack)
  (hops : ∀ op ∈ site.operands, StaysIn n mask top (op.run mask))

include hops

theorem staysIn_evalQuosure {own : Option EnvId} (hown : ∀ e ∈ own, e.index < n) :
    StaysIn n mask top (site.evalQuosure own mask top) := by
  refine course_evalQuosure (invariant_inForce n mask top) hops (fun {s} hs hoff => ?_) ?_
    fun target ⟨s₀, hs₀, hrun⟩ s hs => ?_
  · rw [hs.heap.hasAncestor_top] at hoff
    cases hoff
  · refine course_silent (putsBack_targetScope own mask) fun {s} hs {err} h => ?_
    obtain ⟨e, hrun, -⟩ := hs.targetScope_run hown
    rw [hrun] at h
    cases h
  · obtain ⟨e, hrun', hlt⟩ := hs₀.targetScope_run hown
    rw [hrun'] at hrun
    cases hrun
    rw [hs.heap.hasAncestor_of_lt hlt]
    exact hs.spliced hlt

include hback

theorem staysIn_toFormula : StaysIn n mask top (site.toFormula mode mask) :=
  course_toFormula (invariant_inForce n mask top) (invariant_inForce n mask top) ordinary_inScope
    hback (fun hs => hs.nested) hops fun _ _ hs => hs.routed nofun

theorem staysIn_overridden (hown : ∀ f ∈ site.object, ∀ e ∈ f.env, e.index < n) :
    StaysIn n mask top (site.overridden mode mask top) := by
  refine course_overridden (staysIn_toFormula hback hops) fun head args own hobject => ?_
  exact staysIn_evalQuosure hops (hown _ hobject)

theorem staysIn_eval (hown : ∀ f ∈ site.object, ∀ e ∈ f.env, e.index < n) :
    StaysIn n mask top (site.eval mode mask) := by
  refine course_eval (invariant_inForce n mask top) ordinary_inScope hback (fun hs => hs.nested)
    (course_apply (invariant_inForce n mask top) ordinary_inScope hback hops)
    fun t ⟨s, hs, ht⟩ => ?_
  obtain rfl := hs.eq_of_resolve ht
  refine staysIn_frames (fun mask' top' => ?_) (staysIn_overridden hback hops hown)
  rw [run_overridden]
  exact CallSite.putsBack_overridden hback mode mask' top'

end TracedSite

/-! ## Code and values -/

theorem staysIn_symbol (mode : Mode) (name : Name) :
    StaysIn n mask top ((Expr.symbol name).trace mode mask) := by
  refine course_evaluates (course_silent ((Expr.symbol name).putsBack_eval mode mask)
    fun {s} hs {err} h => ?_) fun hs => hs.routed nofun
  simp only [Expr.eval, Attempt.bind_run, Attempt.read] at h
  rcases hv : s.heap.resolve? mask name with _ | v
  · rw [hv] at h
    cases h
    have hn : name ≠ .env := by
      rintro rfl
      obtain ⟨e, he, -⟩ := hs.heap.scope
      have hnone := List.findSome?_eq_none_iff.1 hv mask (List.mem_cons_self ..)
      rw [he] at hnone
      cases hnone
    exact inScope_undefinedVariable (hs.text_ne hn)
  · rw [hv] at h
    cases h

mutual

/-- Evaluation in the mask stays there. -/
theorem Expr.staysIn_trace (mode : Mode) (e : Expr) (hmade : ∀ x ∈ e.handles, x.index < n)
    (htilde : e.TildeFormulas) : StaysIn n mask top (e.trace mode mask) := by
  cases e with
  | const v => exact v.staysIn_traceInlined mode hmade htilde
  | symbol name => exact staysIn_symbol mode name
  | call head args =>
    refine course_evaluates ?_ fun hs => hs.routed nofun
    exact TracedSite.staysIn_eval (args.putsBack_site mode head _)
      (args.staysIn_traced mode hmade htilde) nofun
  | missing => exact course_evaluates (course_pure _) fun hs => hs.routed nofun

theorem Value.staysIn_traceInlined (mode : Mode) (v : Value)
    (hmade : ∀ x ∈ v.handles, x.index < n) (htilde : v.TildeFormulas) :
    StaysIn n mask top (v.traceInlined mode mask) := by
  cases v with
  | formula head args own kind =>
    have hparts := fun x hx => hmade x (mem_joinHandles.2 hx)
    refine course_evaluates ?_ fun hs => hs.routed fun _ name hname =>
      htilde.1 name (Option.some.inj hname)
    refine TracedSite.staysIn_eval (args.putsBack_site mode head _)
      (args.staysIn_traced mode (fun x hx => hparts x (Or.inr hx)) htilde.2) fun f hf e he => ?_
    cases hf
    exact hparts e (Or.inl (Option.mem_toList.2 he))
  | _ => exact course_evaluates (course_pure _) fun hs => hs.routed nofun

theorem Args.staysIn_traced (mode : Mode) (args : Args) (hmade : ∀ x ∈ args.handles, x.index < n)
    (htilde : args.TildeFormulas) :
    ∀ op ∈ args.traced mode, StaysIn n mask top (op.run mask) := by
  cases args with
  | nil => exact nofun
  | cons e rest =>
    rw [Args.traced, List.forall_mem_cons]
    rw [Args.handles] at hmade
    have hparts := fun x hx => hmade x (mem_joinHandles.2 hx)
    exact ⟨e.staysIn_trace mode (fun x hx => hparts x (Or.inl hx)) htilde.1,
      rest.staysIn_traced mode (fun x hx => hparts x (Or.inr hx)) htilde.2⟩

end

end

/-! ## The mask of an evaluation -/

namespace Heap

/-- The mask that is built for data which is no mask: null gets an overscope without data. -/
def ownMask (h : Heap) : Value → EnvId
  | .null => ⟨h.size⟩
  | _ => h.newMask

/-- Its top frame: the overscope itself, or the frame of the data. -/
def ownTop (h : Heap) : Value → EnvId
  | .null => ⟨h.size⟩
  | _ => h.newBottom

theorem ownMask_of_ne_null (h : Heap) {data : Value} (hne : data ≠ .null) :
    h.ownMask data = h.newMask ∧ h.ownTop data = h.newBottom := by
  cases data with
  | null => exact absurd rfl hne
  | _ => exact ⟨rfl, rfl⟩

/-- Data that binds an override to no name but `~`. -/
def DataOverridesTildeAlone (h : Heap) (data : Value) : Prop :=
  ∀ name v, h.DataBinds data name v → v.isOverride → name = .tilde

/-- A new mask for data is in force. -/
theorem FreshMask.inForce {h h' : Heap} {data : Value} {scope : EnvId}
    (hf : h.FreshMask data scope h') (hc : h.Closed) (hscope : scope.index < h.size)
    (honly : h.OnlyTildeOverridden) (hdata : h.DataOverridesTildeAlone data) :
    h'.InForce h.size h.newMask h.newBottom := by
  refine ⟨?_, ⟨scope, ?_, hscope⟩, isLive_of_parent? hf.link_bottom, Or.inr hf.link_mask,
    h.size_le_newBottom, ?_, ?_⟩
  · rw [hf.local?_mask]
    rfl
  · rw [hf.local?_mask]
    rfl
  · intro e p he hp
    rw [Link, parent?, hf.old e he] at hp
    exact hc e p hp
  · intro e name v hv hov
    rcases Nat.lt_or_ge e.index h.size with he | he
    · rw [local?, bindings, hf.old e he] at hv
      exact honly e name v hv hov
    have hlive := isLive_of_local? hv
    rcases eq_newBottom_or_newMask hf.size he hlive with rfl | rfl
    · rcases hf.binds_bottom hv with ⟨-, source, absence, rfl⟩ | hbound
      · cases hov
      · exact hdata name v hbound hov
    · rw [hf.local?_mask] at hv
      exact eq_tilde_of_maskBindings hv (Value.isCallable_of_isOverride hov)

/-- A new overscope without data is in force, as its own top frame. -/
theorem inForce_addQuosureMask {h : Heap} {scope : EnvId} (hc : h.Closed)
    (hscope : scope.index < h.size) (honly : h.OnlyTildeOverridden) :
    (h.addQuosureMask scope).2.InForce h.size ⟨h.size⟩ ⟨h.size⟩ := by
  have hother : ∀ e, e ≠ ⟨h.size⟩ → (h.addQuosureMask scope).2.frame? e = h.frame? e :=
    fun e he => by rw [frame?_addQuosureMask, if_neg he]
  refine ⟨?_, ⟨scope, ?_, hscope⟩, isLive_of_parent? (h.link_addQuosureMask scope), Or.inl rfl,
    Nat.le_refl _, ?_, ?_⟩
  · rw [local?_addQuosureMask_self]
    rfl
  · rw [local?_addQuosureMask_self]
    rfl
  · intro e p he hp
    have hne : e ≠ ⟨h.size⟩ := fun heq => Nat.lt_irrefl h.size (by rwa [heq] at he)
    rw [Link, parent?, hother e hne] at hp
    exact hc e p hp
  · intro e name v hv hov
    by_cases he : e = ⟨h.size⟩
    · rw [he, local?_addQuosureMask_self] at hv
      exact eq_tilde_of_quosureMaskBindings hv (Value.isCallable_of_isOverride hov)
    · rw [local?, bindings, hother e he] at hv
      exact honly e name v hv hov

end Heap

/-- What is evaluated for a value holds no other environments. -/
theorem Value.mem_handles_of_body {v : Value} {x : EnvId} (hx : x ∈ v.body.handles) :
    x ∈ v.handles := by
  unfold Value.body at hx
  rcases hq : v.quosure? with _ | f
  · rw [hq] at hx
    cases v <;> exact hx
  · rw [hq] at hx
    simp only at hx
    have hv := Value.formula?_eq_some_iff.1 (Option.eq_some_of_filter_eq_some hq)
    rcases hr : f.rhs? with _ | rhs
    · rw [hr] at hx
      cases hx
    · rw [hr] at hx
      rw [hv, f.mem_handles_iff, Args.mem_handles_iff]
      exact Or.inr ⟨rhs, List.mem_of_getLast? hr, hx⟩

/-- In a mask of its own that is in force an evaluation stays in it, and fails for no reason of
the scope graph. -/
theorem inScope_inOwnMask {build : Heap → Except EvalError (EnvId × Heap)}
    {takeDown : Heap → EnvId → Heap} {body : EnvId → Traced Value} {s : State} {n : Nat}
    {mask top : EnvId}
    (hbuild : ∀ m h, build s.heap = .ok (m, h) →
      m = mask ∧ ({ s with heap := h, held := m :: s.held } : State).InForce n mask top)
    (hrefused : ∀ err, build s.heap = .error err → err.InScope)
    (hbody : StaysIn n mask top (body mask)) :
    (∀ err, ((traceInOwnMask build takeDown body).run s).1 = .error err → err.InScope) ∧
      ∀ v ∈ (traceInOwnMask build takeDown body).visits s, v.Routed mask top := by
  simp only [traceInOwnMask, inOwnMask]
  rcases hb : build s.heap with err | ⟨m, h⟩
  · refine ⟨fun err' herr => ?_, List.forall_mem_nil _⟩
    cases herr
    exact hrefused err hb
  · obtain ⟨rfl, hin⟩ := hbuild m h hb
    exact ⟨fun err herr => hbody.fails hin herr, hbody.visits hin⟩

/-- Evaluation with data that is no mask never fails because of the scope graph, with cycles
in it or without, as long as nothing binds an override to another name than `~`. In each of
the evaluations that it starts the mask is the environment, and each `~` call and each formula
object with a symbol in its head is routed to the mask and its top frame. -/
theorem evalWithData_inScope (mode : Mode) {code data : Value} {env : EnvId} {s : State}
    (hs : s.heap.Settled s.held) (hc : s.heap.Closed) (hlaw : s.interner.Lawful)
    (henv : s.interner.text .env = ".env")
    (hmade : ∀ x ∈ env :: code.handles, x.index < s.heap.size)
    (hown : data.env?.filter s.heap.isMask = none) (honly : s.heap.OnlyTildeOverridden)
    (hdata : s.heap.DataOverridesTildeAlone data) (hcode : code.body.TildeFormulas) :
    (∀ err, (evalWithData mode code data env s).1 = .error err → err.InScope) ∧
      ∀ v ∈ (traceWithData mode code data env).visits s,
        v.Routed (s.heap.ownMask data) (s.heap.ownTop data) := by
  have hscope := hmade _ (code.scopeOr_mem env)
  have hbody : ∀ mask top, StaysIn s.heap.size mask top (code.body.trace mode mask) :=
    fun mask top => code.body.staysIn_trace mode
      (fun x hx => hmade x (List.mem_cons_of_mem env (Value.mem_handles_of_body hx))) hcode
  rw [evalWithData_of_none mode hown, visits_traceWithData_of_none hown]
  unfold traceInData
  split
  · refine inScope_inOwnMask (fun m h hb => ?_) (fun err herr => ?_) (hbody _ _)
    · cases hb
      exact ⟨rfl, Heap.inForce_addQuosureMask hc hscope honly,
        (Heap.growsByMask_addQuosureMask hscope).settled hs, hlaw, henv⟩
    · cases herr
  · next hne =>
    obtain ⟨hmask, htop⟩ := s.heap.ownMask_of_ne_null hne
    rw [hmask, htop]
    refine inScope_inOwnMask (fun m h hb => ?_) (fun err herr => ?_) (hbody _ _)
    · obtain ⟨rfl, hfresh⟩ := Heap.freshMask_maskOf hb
      exact ⟨rfl, hfresh.inForce hc hscope honly hdata,
        (Heap.growsByMask_maskOf hscope hb).settled hs, hlaw, henv⟩
    · obtain ⟨defect, rfl⟩ := Heap.maskOf_eq_error herr
      exact inScope_invalidDataMask defect

/-- Data that binds `~` to the override of another mask, and a variable to `.env`. -/
def Value.sampleClutter : Value :=
  .list .plain (.cons (some .tilde) (.override ⟨⟨4⟩, ⟨3⟩⟩)
    (.cons (some .env) (.int 7) (.cons (some ⟨12⟩) (.int 1) .nil)))

/-- A quosure in the mask ⟨4⟩ that was there before, and in it a quosure without a scope. -/
def Formula.sampleNested : Formula :=
  .quosure (.call (.inlined (.arithmetic .add)) (.ofList [.symbol ⟨12⟩,
    .const (Formula.quosure (.symbol ⟨13⟩) none).toValue])) (some ⟨4⟩)

/-- The new mask ⟨6⟩ is the one in force, for the inner quosure too, which finds its variable
in the data of the old mask. -/
theorem evalWithData_inScope_sample :
    State.sample.heap.Settled State.sample.held ∧
      State.sample.heap.OnlyTildeOverridden ∧
      (∀ err, (evalWithData .unlimited Formula.sampleNested.toValue .sampleClutter .global
        .sample).1 = .error err → err.InScope) ∧
      (∀ v ∈ (traceWithData .unlimited Formula.sampleNested.toValue .sampleClutter
        .global).visits .sample, v.Routed ⟨6⟩ ⟨5⟩) ∧
      (evalWithData .unlimited Formula.sampleNested.toValue .sampleClutter .global
        .sample).1.toOption.map (· == .int 6) = some true := by
  have hdata : State.sample.heap.DataOverridesTildeAlone .sampleClutter := by
    have hall : ∀ p ∈ Entries.named (.cons (some .tilde) (.override ⟨⟨4⟩, ⟨3⟩⟩)
        (.cons (some .env) (.int 7) (.cons (some ⟨12⟩) (.int 1) .nil))),
        p.2.isOverride → p.1 = .tilde := by decide
    exact fun name v hv => hall (name, v) hv
  have honly : State.sample.heap.OnlyTildeOverridden := by decide
  have hcode : Formula.sampleNested.toValue.body.TildeFormulas :=
    ⟨trivial, ⟨fun _ h => (Head.symbol.inj h).symm, trivial, trivial⟩, trivial⟩
  obtain ⟨herr, hvisits⟩ := @evalWithData_inScope .unlimited Formula.sampleNested.toValue
    .sampleClutter .global .sample State.sound_sample.settled (by decide)
    Interner.lawful_initial Interner.text_initial_reserved.2.2.1 (by decide) rfl honly hdata hcode
  exact ⟨State.sound_sample.settled, honly, herr, hvisits, by decide +kernel⟩

end Overscope
