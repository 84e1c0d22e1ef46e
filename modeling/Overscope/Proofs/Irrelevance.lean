-- A binding matters to the positions that read its name, and to no other. Two scope graphs
-- that differ in what one frame binds one name to look the same to code that does not read the
-- name, and to calls too, as long as neither of the two values can be called.
import Overscope.Proofs.Mentions

namespace Overscope

/-! ## One binding apart -/

/-- The same frames are alive and lead to the same parents, and they bind the same, but for
what `f` binds `n` to. -/
structure Heap.AgreeBut (f : EnvId) (n : Name) (h h' : Heap) : Prop where
  isLive : ∀ e, h.isLive e = h'.isLive e
  parent : ∀ e, h.parent? e = h'.parent? e
  binding : ∀ e name, (e = f → name ≠ n) → h.local? e name = h'.local? e name

theorem Heap.agreeBut_bind (h : Heap) (f : EnvId) (n : Name) (u : Value) :
    h.AgreeBut f n (h.bind f n u) where
  isLive e := (isLive_modify h f e _).symm
  parent e := (parent?_bind h f e n u).symm
  binding e name hne := by
    rw [local?_bind, if_neg]
    rintro ⟨hf, -, hn⟩
    exact hne hf.symm hn.symm

theorem Heap.agreeBut_unbind (h : Heap) (f : EnvId) (n : Name) :
    h.AgreeBut f n (h.unbind f n) where
  isLive e := (isLive_modify h f e _).symm
  parent e := (parent?_unbind h f e n).symm
  binding e name hne := by
    rw [local?_unbind, if_neg]
    rintro ⟨hf, hn⟩
    exact hne hf.symm hn.symm

/-- The second state is the first one, but for what `f` binds `n` to and who holds frames. -/
structure State.AgreeBut (f : EnvId) (n : Name) (s s' : State) : Prop where
  heap : s.heap.AgreeBut f n s'.heap
  memo : s'.memo = s.memo
  depth : s'.depth = s.depth

theorem State.AgreeBut.sound {f : EnvId} {n : Name} {s s' : State} (h : s.AgreeBut f n s')
    (hs : s.Sound) (hsettled : s'.heap.Settled s'.held) : s'.Sound where
  acyclic := Heap.acyclic_of_link_imp (fun e _ hp => (h.heap.parent e).trans hp) hs.acyclic
  settled := hsettled

namespace View

variable {f : EnvId} {n : Name} {v w : View}

/-- Two views that look the same, but for what `f` binds `n` to. -/
structure AgreeBut (f : EnvId) (n : Name) (v w : View) : Prop where
  size : v.size = w.size
  isLive : ∀ e, v.isLive e = w.isLive e
  parent : ∀ e, v.parent? e = w.parent? e
  binding : ∀ e name, (e = f → name ≠ n) → v.local? e name = w.local? e name

namespace AgreeBut

theorem chain (h : v.AgreeBut f n w) (e : EnvId) : v.chain e = w.chain e := by
  rw [View.chain, View.chain, h.size]
  exact chainUpTo_congr h.parent _ e

theorem hasAncestor (h : v.AgreeBut f n w) (e other : EnvId) :
    v.hasAncestor e other = w.hasAncestor e other := by
  rw [View.hasAncestor, View.hasAncestor, h.chain]

/-- Another name is bound to the same everywhere. -/
theorem local?_of_ne (h : v.AgreeBut f n w) (e : EnvId) {name : Name} (hname : name ≠ n) :
    v.local? e name = w.local? e name :=
  h.binding e name fun _ => hname

/-- A walk does not tell the views apart if it accepts neither value of `n`. -/
theorem resolveWhere? (h : v.AgreeBut f n w) (e : EnvId) {name : Name} {accept : Value → Bool}
    (hrefused : name = n → ∀ u, v.local? f n = some u ∨ w.local? f n = some u → accept u = false) :
    v.resolveWhere? e name accept = w.resolveWhere? e name accept := by
  rw [View.resolveWhere?, View.resolveWhere?, h.chain]
  congr 1
  funext x
  by_cases hx : x = f ∧ name = n
  · obtain ⟨rfl, rfl⟩ := hx
    have hv : (v.local? x name).filter accept = none := Option.filter_eq_none_iff.2 fun u hu =>
      Bool.eq_false_iff.1 (hrefused rfl u (Or.inl hu))
    have hw : (w.local? x name).filter accept = none := Option.filter_eq_none_iff.2 fun u hu =>
      Bool.eq_false_iff.1 (hrefused rfl u (Or.inr hu))
    rw [hv, hw]
  · rw [h.binding x name fun hxf hn => hx ⟨hxf, hn⟩]

theorem splice (h : v.AgreeBut f n w) (hflag : .maskFlag ≠ n) (overscope top target : EnvId) :
    (v.splice overscope top target).AgreeBut f n (w.splice overscope top target) where
  size := by rw [size_splice, size_splice, h.size]
  isLive e := by rw [isLive_splice, isLive_splice, h.isLive]
  parent e := by rw [parent?_splice, parent?_splice, h.isLive, h.parent]
  binding e name hne := by
    have hmask : v.isMask overscope = w.isMask overscope := by
      rw [isMask, isMask, h.local?_of_ne overscope hflag]
    rw [local?_splice, local?_splice, hmask, h.isLive, h.binding e name hne]

end AgreeBut

/-- What a splice binds cannot be called, so what can be called was there before. -/
theorem local?_of_splice {overscope top target e : EnvId} {name : Name} {u : Value}
    (hu : (v.splice overscope top target).local? e name = some u) :
    v.local? e name = some u ∨ u.isCallable = false := by
  rw [local?_splice] at hu
  split at hu
  · cases hu
    exact Or.inr rfl
  · exact Or.inl hu

/-- Two such views of what can be called in the state `s`. If `heads` says that calls may have
the head `n`, then neither value of `n` can be called. -/
structure Apart (s : State) (f : EnvId) (n : Name) (heads : Prop) (v w : View) : Prop where
  but : v.AgreeBut f n w
  uncallable : heads → ∀ u, v.local? f n = some u ∨ w.local? f n = some u → u.isCallable = false
  tilde : v.local? .base .tilde = s.heap.boundTilde
  callable : ∀ e name u, v.local? e name = some u → u.isCallable → s.heap.local? e name = some u

theorem Apart.splice {s : State} {heads : Prop} (h : Apart s f n heads v w)
    (hflag : .maskFlag ≠ n) (overscope top target : EnvId) :
    Apart s f n heads (v.splice overscope top target) (w.splice overscope top target) where
  but := h.but.splice hflag overscope top target
  uncallable hheads u := by
    rintro (hu | hu)
    · rcases local?_of_splice hu with hold | hno
      · exact h.uncallable hheads u (Or.inl hold)
      · exact hno
    · rcases local?_of_splice hu with hold | hno
      · exact h.uncallable hheads u (Or.inr hold)
      · exact hno
  tilde := by
    rw [local?_splice, if_neg fun hc => absurd hc.2.2.2 (by decide)]
    exact h.tilde
  callable e name u hu hc := by
    rcases local?_of_splice hu with hold | hno
    · exact h.callable e name u hold hc
    · rw [hno] at hc
      cases hc

end View

theorem Heap.AgreeBut.view {f : EnvId} {n : Name} {h h' : Heap} (hbut : h.AgreeBut f n h') :
    h.view.AgreeBut f n h'.view where
  size := congrArg List.length (liveFrames_congr hbut.isLive)
  isLive := hbut.isLive
  parent := hbut.parent
  binding := hbut.binding

/-! ## Steps that coincide -/

variable {α β : Type} {j : Interner} {I : Memo → Prop} {P : α → Prop} {Q : β → Prop}

/-- From a memory that satisfies `I` the two steps do the same, if the first one issues no
names but those of `j`. They end with such a memory, and a result satisfies `P`. -/
def Coincide (j : Interner) (I : Memo → Prop) (P : α → Prop) (x y : ViewM α) : Prop :=
  ∀ m, I m → (x m).2.interner.Extends j →
    x m = y m ∧ I (x m).2 ∧ ∀ a, (x m).1 = .ok a → P a

theorem coincide_pure {a : α} (ha : P a) : Coincide j I P (pure a) (pure a) := by
  refine fun m hm _ => ⟨rfl, hm, fun a' h => ?_⟩
  cases h
  exact ha

theorem coincide_fail (err : EvalError) : Coincide j I P (.fail err) (.fail err) :=
  fun m hm _ => ⟨rfl, hm, fun a h => by cases h⟩

theorem coincide_ofExcept (r : Except EvalError α) :
    Coincide j I (fun _ => True) (.ofExcept r) (.ofExcept r) :=
  fun _ hm _ => ⟨rfl, hm, fun _ _ => trivial⟩

/-- Failures that tell a name by its text. -/
theorem coincide_fail_text (name : Name) (err : String → EvalError) :
    Coincide j I P (do .fail (err (← textOf name))) (do .fail (err (← textOf name))) :=
  fun m hm _ => ⟨rfl, hm, fun a h => by cases h⟩

/-- The names that the first step issued are still there after the second one. -/
theorem coincide_bind {x y : ViewM α} {g k : α → ViewM β} (hxy : Coincide j I P x y)
    (hlearns : ∀ a, Learns (g a)) (hgk : ∀ a, P a → Coincide j I Q (g a) (k a)) :
    Coincide j I Q (x >>= g) (y >>= k) := by
  intro m hm hj
  have hfirst := hxy m hm
  rw [Attempt.bind_run] at hj
  rw [Attempt.bind_run, Attempt.bind_run]
  rcases hx : x m with ⟨err | a, m'⟩
  · rw [hx] at hj hfirst
    obtain ⟨heq, hmemo, -⟩ := hfirst hj
    rw [← heq]
    exact ⟨rfl, hmemo, fun b h => by cases h⟩
  · rw [hx] at hj hfirst
    obtain ⟨heq, hmemo, hresult⟩ := hfirst ((hlearns a m').interner.trans hj)
    rw [← heq]
    exact hgk a (hresult a rfl) m' hmemo hj

theorem coincide_deeper {x y : Option Allowance → ViewM α} (h : ∀ d, Coincide j I P (x d) (y d))
    (d : Option Allowance) : Coincide j I P (deeper d x) (deeper d y) := by
  rcases d with _ | ⟨limit, _ | left⟩
  · exact h none
  · exact coincide_fail _
  · exact h (some ⟨limit, left⟩)

/-! ## Memories -/

/-- Whatever was learned since the state `s`, the operator of `~` is still the same. -/
def State.Recalls (s : State) (m : Memo) : Prop :=
  m.tildeIn s.heap.boundTilde = s.memo.tildeIn s.heap.boundTilde

/-- What the base `~` is depends on what is recalled of it, and that is what is recalled
afterwards. -/
theorem baseTildeIn_run (v : View) (m : Memo) :
    (baseTildeIn v m).1 = m.tildeIn (v.local? .base .tilde) ∧
      (baseTildeIn v m).2.tildeIn (v.local? .base .tilde) = m.tildeIn (v.local? .base .tilde) := by
  obtain ⟨interner, tilde⟩ := m
  simp only [baseTildeIn, Attempt.bind_run, Attempt.read, Memo.tildeIn]
  cases tilde with
  | some p => exact ⟨rfl, rfl⟩
  | none =>
    rcases v.local? .base .tilde with _ | u
    · exact ⟨rfl, rfl⟩
    · cases u <;> exact ⟨rfl, rfl⟩

/-! ## Operators -/

section Operators

variable {s : State} {f : EnvId} {n : Name} {heads : Prop} {v w : View}

/-- In any two such views the operand does the same, and all that it does besides is learn. -/
structure ViewOperand.Coincides (s : State) (j : Interner) (f : EnvId) (n : Name) (heads : Prop)
    (op : ViewOperand) : Prop where
  learns : op.Learns
  same : ∀ v w, View.Apart s f n heads v w → ∀ d env,
    Coincide j s.Recalls (fun _ => True) (op.run v d env) (op.run w d env)

theorem coincide_memberNameIn {e : Expr} (he : ¬ j.Spells n e) :
    Coincide j s.Recalls (· ≠ n) e.memberNameIn e.memberNameIn := by
  cases e with
  | const u =>
    cases u with
    | str text =>
      refine fun m hm hj => ⟨rfl, hm, fun name hname hn => he ?_⟩
      cases hname
      -- A text keeps its name from the step that reads the member to the end.
      exact hj.names text n (hn ▸ m.interner.get?_intern text)
    | _ => exact coincide_fail _
  | symbol m => exact coincide_pure he
  | _ => exact coincide_fail _

/-- A member of another name is the same. -/
theorem coincide_memberIn (h : View.Apart s f n heads v w) (u : Value) {name : Name}
    (hname : name ≠ n) :
    Coincide j I (fun _ => True) (u.memberIn v name) (u.memberIn w name) := by
  cases u with
  | pronoun source absence =>
    have hsame : source.getIn? v name = source.getIn? w name := by
      cases source with
      | list kind entries => rfl
      | env e => exact h.but.local?_of_ne e hname
    simp only [Value.memberIn, hsame]
    rcases source.getIn? w name with _ | found
    · exact coincide_fail_text name _
    · exact coincide_pure trivial
  | list kind entries => exact coincide_pure trivial
  | env e =>
    simp only [Value.memberIn, h.but.local?_of_ne e hname]
    exact coincide_pure trivial
  | _ => exact coincide_fail _

theorem coincide_evalOperandsIn (h : View.Apart s f n heads v w) {ops : List ViewOperand}
    (hops : ∀ op ∈ ops, op.Coincides s j f n heads) (d : Option Allowance) (env : EnvId) :
    Coincide j s.Recalls (fun _ => True) (evalOperandsIn v d env ops)
      (evalOperandsIn w d env ops) := by
  induction ops with
  | nil => exact coincide_pure trivial
  | cons op ops ih =>
    rw [List.forall_mem_cons] at hops
    have hrest := learns_evalOperandsIn v d env fun op hop => (hops.2 op hop).learns
    apply coincide_bind (hops.1.same v w h d env)
    · exact fun u => learns_bind hrest fun us => learns_pure (u :: us)
    intro u _
    apply coincide_bind (ih hops.2)
    · exact fun us => learns_pure (u :: us)
    intro us _
    exact coincide_pure trivial

/-- No member of the call is spelled like `n`. -/
def ViewSite.SpellsOthers (j : Interner) (n : Name) (site : ViewSite) : Prop :=
  ∀ target member, site.operands = [target, member] → ¬ j.Spells n member.code

theorem coincide_applyIn (h : View.Apart s f n heads v w) {site : ViewSite}
    (hops : ∀ op ∈ site.operands, op.Coincides s j f n heads) {p : Primitive}
    (hmember : p = .member → site.SpellsOthers j n) (d : Option Allowance) (env : EnvId) :
    Coincide j s.Recalls (fun _ => True) (site.applyIn v d env p) (site.applyIn w d env p) := by
  obtain ⟨head, ops, object⟩ := site
  cases p with
  | tilde => exact coincide_pure trivial
  | quote =>
    rcases ops with _ | ⟨op, _ | _⟩
    · exact coincide_fail _
    · exact coincide_pure trivial
    · exact coincide_fail _
  | member =>
    rcases ops with _ | ⟨target, _ | ⟨member, _ | _⟩⟩
    · exact coincide_fail _
    · exact coincide_fail _
    · apply coincide_bind ((hops target (List.mem_cons_self ..)).same v w h d env)
      · exact fun u => learns_bind (learns_memberNameIn member.code) (learns_memberIn v u)
      intro u _
      apply coincide_bind (coincide_memberNameIn (hmember rfl target member rfl))
      · exact learns_memberIn v u
      intro name hname
      exact coincide_memberIn h u hname
    · exact coincide_fail _
  | arithmetic op =>
    apply coincide_bind (coincide_evalOperandsIn h hops d env)
    · exact fun us m => m.extends_refl
    intro us _
    exact coincide_ofExcept _

/-! ## Formulas and quosures -/

theorem coincide_baseTildeIn (h : View.Apart s f n heads v w) (htilde : .tilde ≠ n) :
    Coincide j s.Recalls (fun p => (baseTilde s).1 = .ok p) (baseTildeIn v) (baseTildeIn w) := by
  have hsame : baseTildeIn v = baseTildeIn w := by
    unfold baseTildeIn
    rw [h.but.local?_of_ne .base htilde]
  intro m hm _
  obtain ⟨hout, hrecalled⟩ := baseTildeIn_run v m
  rw [h.tilde] at hout hrecalled
  rw [← hsame]
  refine ⟨rfl, hrecalled.trans hm, ?_⟩
  intro p hp
  rw [baseTilde_outcome, ← hm, ← hout, hp]

theorem coincide_toFormulaIn (h : View.Apart s f n heads v w) (htilde : .tilde ≠ n)
    {site : ViewSite} (hops : ∀ op ∈ site.operands, op.Coincides s j f n heads)
    (hmember : (baseTilde s).1 = .ok .member → site.SpellsOthers j n) (d : Option Allowance)
    (env : EnvId) :
    Coincide j s.Recalls (fun _ => True) (site.toFormulaIn v d env)
      (site.toFormulaIn w d env) := by
  obtain ⟨head, ops, object⟩ := site
  have hbuilt : Coincide j s.Recalls (fun _ => True)
      (ViewSite.toFormulaIn ⟨head, ops, none⟩ v d env)
      (ViewSite.toFormulaIn ⟨head, ops, none⟩ w d env) := by
    have hlearns := fun op hop => (hops op hop).learns
    apply coincide_bind (coincide_baseTildeIn h htilde)
    · exact ViewSite.learns_builtIn hlearns v d env
    intro p hp
    have happlied : ∀ d, Coincide j s.Recalls (fun _ => True)
        (ViewSite.applyIn ⟨.inlined p, ops, none⟩ v d env p)
        (ViewSite.applyIn ⟨.inlined p, ops, none⟩ w d env p) := by
      have hbare : ∀ op ∈ (ViewSite.mk (.inlined p) ops none).operands,
          op.Coincides s j f n heads := hops
      refine fun d => coincide_applyIn h hbare ?_ d env
      rintro rfl
      exact hmember hp
    apply coincide_bind (coincide_deeper happlied d)
    · intro u
      cases u <;> exact learns_pure _
    intro u _
    cases u <;> exact coincide_pure trivial
  rcases object with _ | ⟨head', args', _ | e, kind⟩
  · exact hbuilt
  · exact hbuilt
  · exact coincide_pure trivial

theorem coincide_targetIn (h : View.Apart s f n heads v w) (henv : .env ≠ n)
    (own : Option EnvId) (overscope : EnvId) :
    Coincide j I (fun _ => True) (targetIn v own overscope) (targetIn w own overscope) := by
  cases own with
  | some e => exact coincide_pure trivial
  | none =>
    simp only [targetIn, h.but.local?_of_ne overscope henv]
    rcases w.local? overscope .env with _ | u
    · exact coincide_fail_text .env _
    · cases u with
      | env e => exact coincide_pure trivial
      | _ => exact coincide_fail _

/-- The right-hand side of a quosure does the same, also where its scope is spliced in. -/
theorem coincide_quosureIn (h : View.Apart s f n heads v w) (hname : n ∉ maskNames)
    {site : ViewSite} (hops : ∀ op ∈ site.operands, op.Coincides s j f n heads)
    (own : Option EnvId) (d : Option Allowance) (overscope top : EnvId) :
    Coincide j s.Recalls (fun _ => True) (site.quosureIn own v d overscope top)
      (site.quosureIn own w d overscope top) := by
  have hflag : .maskFlag ≠ n := fun heq => hname (heq ▸ by decide)
  have henv : .env ≠ n := fun heq => hname (heq ▸ by decide)
  unfold ViewSite.quosureIn
  rcases hlast : site.operands.getLast? with _ | rhs
  · exact coincide_pure trivial
  · have hrhs := hops rhs (List.mem_of_getLast? hlast)
    simp only [h.but.hasAncestor]
    split
    · exact coincide_pure trivial
    split
    · exact hrhs.same v w h d overscope
    split
    · exact coincide_fail _
    apply coincide_bind (coincide_targetIn h henv own overscope)
    · intro target
      split
      · exact learns_fail _
      · exact hrhs.learns _ d overscope
    intro target _
    split
    · exact coincide_fail _
    · exact hrhs.same _ _ (h.splice hflag overscope top target) d overscope

/-! ## Calls -/

/-- What a head is resolved to is bound in the state. -/
theorem coincide_resolveIn (h : View.Apart s f n heads v w) {head : Head}
    (hhead : head = .symbol n → heads) (env : EnvId) :
    Coincide j I (s.StandsFor · head) (head.resolveIn v env) (head.resolveIn w env) := by
  cases head with
  | inlined p => exact coincide_pure rfl
  | symbol name =>
    have hsame := h.but.resolveWhere? env fun heq => h.uncallable (hhead (congrArg _ heq))
    simp only [Head.resolveIn, ← hsame]
    rcases hfound : v.resolveWhere? env name Value.isCallable with _ | u
    · exact coincide_fail_text name _
    · obtain ⟨e, -, he⟩ := List.exists_of_findSome?_eq_some hfound
      obtain ⟨hlocal, hcallable⟩ := Option.filter_eq_some_iff.1 he
      have hbound := h.callable e name u hlocal hcallable
      cases u with
      | builtin p => exact coincide_pure ⟨e, _, hbound, rfl⟩
      | override o => exact coincide_pure ⟨e, _, hbound, rfl⟩
      | _ => cases hcallable

/-- A call that does not read `n`. -/
structure ViewSite.Spared (s : State) (j : Interner) (f : EnvId) (n : Name) (heads : Prop)
    (site : ViewSite) : Prop where
  operands : ∀ op ∈ site.operands, op.Coincides s j f n heads
  head : site.head = .symbol n → heads
  member : s.ReadsMembers site.head → site.SpellsOthers j n

theorem coincide_evalIn (h : View.Apart s f n heads v w) (hname : n ∉ maskNames)
    {site : ViewSite} (hsite : site.Spared s j f n heads) (d : Option Allowance) (env : EnvId) :
    Coincide j s.Recalls (fun _ => True) (site.evalIn v d env) (site.evalIn w d env) := by
  have htilde : .tilde ≠ n := fun heq => hname (heq ▸ by decide)
  apply coincide_deeper
  intro d
  apply coincide_bind (coincide_resolveIn h hsite.head env)
  · exact ViewSite.learns_calledIn (fun op hop => (hsite.operands op hop).learns) v d env
  intro c hc
  cases c with
  | builtin p =>
    refine coincide_applyIn h hsite.operands ?_ d env
    rintro rfl
    exact hsite.member (Or.inl hc)
  | override o =>
    simp only [h.but.isLive]
    split
    · unfold ViewSite.overriddenIn
      have hformula := coincide_toFormulaIn h htilde hsite.operands
        (fun hbase => hsite.member (Or.inr ⟨hbase, o, hc⟩)) d o.mask
      rcases site.object with _ | ⟨_, _, own, _ | _⟩
      · exact hformula
      · exact hformula
      · exact coincide_quosureIn h hname hsite.operands own d o.mask o.top
    · exact coincide_fail _

end Operators

/-! ## Code -/

section Code

variable {s : State} {j : Interner} {f : EnvId} {n : Name} {heads : Prop}

theorem Args.eq_of_operandsIn {args : Args} {target member : ViewOperand}
    (h : args.operandsIn = [target, member]) :
    args = .cons target.code (.cons member.code .nil) := by
  rcases args with _ | ⟨e, _ | ⟨e', _ | _⟩⟩
  · cases h
  · cases h
  · cases h
    rfl
  · cases h

/-- A call whose positions do not read `n`. -/
theorem spared_of_mentions {head : Head} {args : Args} (object : Option Formula)
    (hmentions : ∀ x ∈ head.mentions args ++ args.mentions, s.Spares j n heads x)
    (hops : ∀ op ∈ args.operandsIn, op.Coincides s j f n heads) :
    ViewSite.Spared s j f n heads ⟨head, args.operandsIn, object⟩ where
  operands := hops
  head := State.spares_head (List.forall_mem_append.1 hmentions).1
  member hreads target member hpair := by
    rw [Args.eq_of_operandsIn hpair] at hmentions
    exact State.not_spells_of_spares hmentions hreads

mutual

/-- Code whose positions do not read `n` does the same in the two views. -/
theorem Expr.coincides (e : Expr) (hname : n ∉ maskNames)
    (hmentions : ∀ x ∈ e.mentions, s.Spares j n heads x) :
    ViewOperand.Coincides s j f n heads ⟨e, e.evalIn⟩ := by
  refine ⟨e.learns_evalIn, fun v w h d env => ?_⟩
  cases e with
  | const u => exact u.coincide_evalInlinedIn hname hmentions h d env
  | symbol name =>
    have hne : name ≠ n := hmentions _ (List.mem_singleton_self _)
    have hsame : v.resolve? env name = w.resolve? env name :=
      h.but.resolveWhere? env fun heq => absurd heq hne
    simp only [Expr.evalIn, ← hsame]
    rcases v.resolve? env name with _ | u
    · exact coincide_fail_text name _
    · exact coincide_pure trivial
  | call head args =>
    have hops := args.coincide_operandsIn hname (List.forall_mem_append.1 hmentions).2
    exact coincide_evalIn h hname (spared_of_mentions none hmentions hops) d env
  | missing => exact coincide_pure trivial

theorem Value.coincide_evalInlinedIn (u : Value) (hname : n ∉ maskNames)
    (hmentions : ∀ x ∈ u.mentions, s.Spares j n heads x) {v w : View}
    (h : View.Apart s f n heads v w) (d : Option Allowance) (env : EnvId) :
    Coincide j s.Recalls (fun _ => True) (u.evalInlinedIn v d env)
      (u.evalInlinedIn w d env) := by
  cases u with
  | formula head args own kind =>
    have hops := args.coincide_operandsIn hname (List.forall_mem_append.1 hmentions).2
    exact coincide_evalIn h hname (spared_of_mentions _ hmentions hops) d env
  | _ => exact coincide_pure trivial

theorem Args.coincide_operandsIn (args : Args) (hname : n ∉ maskNames)
    (hmentions : ∀ x ∈ args.mentions, s.Spares j n heads x) :
    ∀ op ∈ args.operandsIn, op.Coincides s j f n heads := by
  cases args with
  | nil => exact List.forall_mem_nil _
  | cons e rest =>
    rw [Args.mentions, List.forall_mem_append] at hmentions
    rw [Args.operandsIn, List.forall_mem_cons]
    exact ⟨e.coincides hname hmentions.1, rest.coincide_operandsIn hname hmentions.2⟩

end

end Code

/-- The strings that evaluation interns as a name that was issued before are those that
spell it. -/
theorem Expr.get?_eval_of_issued (mode : Mode) (e : Expr) (env : EnvId) {s : State}
    (hs : s.Sound) (hlawful : s.interner.Lawful) {n : Name} (hissued : n.index < s.interner.size)
    {text : String} (htext : (e.eval mode env s).2.interner.names.get? text = some n) :
    text = s.interner.text n := by
  have hlearned := (e.putsBack_eval mode env s hs.settled).memo
  have hlater : (e.eval mode env s).2.interner.Lawful := Memo.lawful_of_gains hlearned hlawful
  have hmeans : (e.eval mode env s).2.interner.text n = text := by
    rw [Interner.text, (hlater text n).1 htext]
    rfl
  exact hmeans.symm.trans ((Memo.extends_of_gains hlearned).interner.text_eq hissued)

/-- Evaluation does not depend on a binding that the code does not read. If the name `n` is
no operand of the code, none of its formulas included, and no string comes to be interned as
`n` where `$` takes it for a member, then it does not matter what the frame `f` binds `n` to.
If `n` stands at the head of calls, it does not matter as long as neither value can be
called. -/
theorem eval_eq_of_unread (mode : Mode) {e : Expr} (env : EnvId) {s s' : State} {f : EnvId}
    {n : Name} (hs : s.Sound) (hbut : s.AgreeBut f n s') (hs' : s'.heap.Settled s'.held)
    (hname : n ∉ maskNames) (hsymbol : .symbol n ∉ e.mentions)
    (hmember : ∀ head text, .member head text ∈ e.mentions → s.ReadsMembers head →
      (e.eval mode env s).2.interner.names.get? text ≠ some n)
    (hhead : .head n ∈ e.mentions → ∀ u,
      s.heap.local? f n = some u ∨ s'.heap.local? f n = some u → u.isCallable = false) :
    (e.eval mode env s').1 = (e.eval mode env s).1 ∧
      (e.eval mode env s').2.memo = (e.eval mode env s).2.memo := by
  have hmentions : ∀ x ∈ e.mentions,
      s.Spares (e.eval mode env s).2.interner n (.head n ∈ e.mentions) x := by
    intro x hx
    cases x with
    | symbol m =>
      rintro rfl
      exact hsymbol hx
    | head m =>
      rintro rfl
      exact hx
    | member head text => exact fun htext hreads => hmember head text hx hreads htext
  have hapart : View.Apart s f n (.head n ∈ e.mentions) s.heap.view s'.heap.view :=
    ⟨hbut.heap.view, hhead, rfl, fun _ _ _ hu _ => hu⟩
  have hextends : (e.evalIn s.heap.view (mode.allowance s.depth) env s.memo).2.interner.Extends
      (e.eval mode env s).2.interner := by
    rw [e.eval_eq_onMemo hs]
    exact Interner.extends_refl _
  have hsame : e.evalIn s.heap.view (mode.allowance s.depth) env s.memo =
      e.evalIn s'.heap.view (mode.allowance s.depth) env s.memo :=
    ((e.coincides hname hmentions).same _ _ hapart _ env s.memo rfl hextends).1
  rw [e.eval_eq_onMemo hs, e.eval_eq_onMemo (hbut.sound hs hs')]
  simp only [State.onMemo, hbut.memo, hbut.depth, hsame]
  exact ⟨trivial, rfl⟩

/-- The sample with `x` and `y` as the names that it binds. -/
def State.sampleNamed : State :=
  { State.sample with interner := Interner.initial.internAll ["x", "y"] }

/-- The sum of `y` and of a quosure over `x + x * y` in the global environment, where the
product is a quosure of its own. -/
def Expr.sampleSum : Expr :=
  let product := Expr.call (.symbol ⟨5⟩) (.ofList [.symbol ⟨12⟩, .symbol ⟨13⟩])
  let sum := Expr.call (.symbol ⟨3⟩)
    (.ofList [.symbol ⟨12⟩, .const (Formula.quosure product none).toValue])
  .call (.symbol ⟨3⟩) (.ofList [.const (Formula.quosure sum (some .global)).toValue, .symbol ⟨13⟩])

/-- The `y` of the data, read by its text, and added to itself. -/
def Expr.sampleMember : Expr :=
  .call (.symbol ⟨3⟩)
    (.ofList [.call (.symbol ⟨7⟩) (.ofList [.const (.env ⟨3⟩), .const (.str "y")]), .symbol ⟨13⟩])

/-- The `y` of the data, read by its text alone. -/
def Expr.sampleRead : Expr :=
  .call (.symbol ⟨7⟩) (.ofList [.const (.env ⟨3⟩), .const (.str "y")])

/-- A column of the data that is called `+` does not hide the operator. Code that reads `y`
does not notice that `x` is removed from the global environment. Where `y` is yet to be
interned, it does not notice either that a name is removed that is not issued next. -/
theorem eval_eq_of_unread_samples :
    let column := State.sampleNamed.heap.bind ⟨3⟩ ⟨3⟩ (.int 1)
    let removed := State.sampleNamed.heap.unbind .global ⟨12⟩
    let emptied := State.sample.heap.unbind ⟨3⟩ ⟨13⟩
    State.sampleNamed.Sound ∧
      ((Expr.sampleSum.eval .unlimited ⟨4⟩ { State.sampleNamed with heap := column }).1 =
          (Expr.sampleSum.eval .unlimited ⟨4⟩ State.sampleNamed).1 ∧
        (Expr.sampleSum.eval .unlimited ⟨4⟩ State.sampleNamed).1.toOption.map (· == .int 17) =
          some true) ∧
      ((Expr.sampleMember.eval .unlimited ⟨4⟩ { State.sampleNamed with heap := removed }).1 =
          (Expr.sampleMember.eval .unlimited ⟨4⟩ State.sampleNamed).1 ∧
        (Expr.sampleMember.eval .unlimited ⟨4⟩ State.sampleNamed).1.toOption.map (· == .int 10) =
          some true) ∧
      (Expr.sampleRead.eval .unlimited ⟨4⟩ { State.sample with heap := emptied }).1 =
          (Expr.sampleRead.eval .unlimited ⟨4⟩ State.sample).1 ∧
        (Expr.sampleRead.eval .unlimited ⟨4⟩ State.sample).1.toOption.map (· == .null) =
          some true := by
  have hs : State.sampleNamed.Sound := ⟨by decide, by decide⟩
  have hlawful : State.sampleNamed.interner.Lawful :=
    Interner.lawful_internAll Interner.lawful_initial _
  have hissued : State.sampleNamed.interner.size = 14 ∧
      State.sampleNamed.interner.text ⟨12⟩ = "x" := by decide +kernel
  have hcolumn : State.sampleNamed.AgreeBut ⟨3⟩ ⟨3⟩
      { State.sampleNamed with heap := State.sampleNamed.heap.bind ⟨3⟩ ⟨3⟩ (.int 1) } :=
    ⟨Heap.agreeBut_bind _ _ _ _, rfl, rfl⟩
  have hremoved : State.sampleNamed.AgreeBut .global ⟨12⟩
      { State.sampleNamed with heap := State.sampleNamed.heap.unbind .global ⟨12⟩ } :=
    ⟨Heap.agreeBut_unbind _ _ _, rfl, rfl⟩
  have hemptied : State.sample.AgreeBut ⟨3⟩ ⟨13⟩
      { State.sample with heap := State.sample.heap.unbind ⟨3⟩ ⟨13⟩ } :=
    ⟨Heap.agreeBut_unbind _ _ _, rfl, rfl⟩
  have hplus : .symbol ⟨3⟩ ∉ Expr.sampleSum.mentions ∧
      ∀ head text, .member head text ∉ Expr.sampleSum.mentions := by
    simp [Expr.sampleSum, Args.ofList, Expr.mentions, Value.mentions, Formula.quosure,
      Formula.toValue, Args.mentions, Head.mentions, Args.spelled?]
  have hx : .symbol ⟨12⟩ ∉ Expr.sampleMember.mentions ∧
      (∀ head, .member head "x" ∉ Expr.sampleMember.mentions) ∧
      .head ⟨12⟩ ∉ Expr.sampleMember.mentions := by
    simp [Expr.sampleMember, Args.ofList, Expr.mentions, Value.mentions, Args.mentions,
      Head.mentions, Args.spelled?]
  have hy : .symbol ⟨13⟩ ∉ Expr.sampleRead.mentions ∧
      (∀ head text, .member head text ∈ Expr.sampleRead.mentions → text = "y") ∧
      .head ⟨13⟩ ∉ Expr.sampleRead.mentions := by
    simp [Expr.sampleRead, Args.ofList, Expr.mentions, Value.mentions, Args.mentions,
      Head.mentions, Args.spelled?]
  have hnext : (Expr.sampleRead.eval .unlimited ⟨4⟩ State.sample).2.interner.names.get? "y" =
      some ⟨12⟩ := by decide +kernel
  refine ⟨hs, ⟨?_, by decide +kernel⟩, ⟨?_, by decide +kernel⟩, ?_, by decide +kernel⟩
  · refine (eval_eq_of_unread .unlimited ⟨4⟩ hs hcolumn (by decide +kernel) (by decide) hplus.1
      (fun head text hin => absurd hin (hplus.2 head text)) ?_).1
    rintro - u (hu | hu)
    · cases hu
    · cases hu
      rfl
  · refine (eval_eq_of_unread .unlimited ⟨4⟩ hs hremoved (by decide +kernel) (by decide) hx.1
      (fun head text hin _ htext => ?_) (fun hin => absurd hin hx.2.2)).1
    have hspelled := Expr.get?_eval_of_issued .unlimited _ ⟨4⟩ hs hlawful
      (hissued.1 ▸ by decide) htext
    rw [hspelled, hissued.2] at hin
    exact hx.2.1 head hin
  · refine (eval_eq_of_unread .unlimited ⟨4⟩ State.sound_sample hemptied (by decide +kernel)
      (by decide) hy.1 (fun head text hin _ htext => ?_) (fun hin => absurd hin hy.2.2)).1
    rw [hy.2.1 head text hin, hnext] at htext
    cases htext

/-- The name that a string comes to have is read: the one that is issued next is bound. -/
example :
    let bound := State.sample.heap.bind ⟨3⟩ ⟨12⟩ (.int 1)
    (Expr.sampleRead.eval .unlimited ⟨4⟩ { State.sample with heap := bound }).1.toOption.map
      (· == .int 1) = some true := by
  decide +kernel

end Overscope
