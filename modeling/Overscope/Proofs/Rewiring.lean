-- Programs that rewire the scope graph. A new parent is checked when it is set, but a
-- guard puts an old parent back unchecked. So a run closes a cycle exactly when it
-- releases a guard at a time when the saved parent has the frame on its own chain.
import Overscope.Proofs.DataEval
import Overscope.Proofs.Host

open Relation

namespace Overscope

/-! ## Guards of a scope graph -/

/-- The frame that a guard restores. -/
def Guard.frame : Guard → EnvId
  | .parent e _ => e
  | .binding e _ _ => e

/-- The parent that a guard puts back. -/
def Guard.parent? : Guard → Option EnvId
  | .parent _ previous => previous
  | .binding _ _ _ => none

/-- The frame of the guard is alive, and the parent that it saved was made. -/
structure Guard.Fits (g : Guard) (h : Heap) : Prop where
  isLive : h.isLive g.frame
  saved : ∀ p ∈ g.parent?, p.index < h.size

theorem Guard.frame_mem_handles (g : Guard) : g.frame ∈ g.handles := by
  cases g <;> exact List.mem_cons_self ..

theorem Guard.Fits.mono {g : Guard} {h h' : Heap} (hg : g.Fits h) (hsize : h.size ≤ h'.size)
    (hl : h.isLive g.frame → h'.isLive g.frame) : g.Fits h' :=
  ⟨hl hg.isLive, fun p hp => Nat.lt_of_lt_of_le (hg.saved p hp) hsize⟩

/-! ## What one thing does -/

namespace Act

/-- A program can name what is alive. -/
def Ready (s : Host) (act : Act) : Prop := ∀ e ∈ act.handles, s.state.heap.isLive e

/-- The guard that is released, and those that are newer. -/
def released? (s : Host) : Act → Option (Guard × List Guard)
  | .release index => s.guards[index]?.map (·, s.guards.take index)
  | _ => none

/-- A guard is released after all newer ones on its frame. -/
def InOrder (s : Host) (act : Act) : Prop :=
  ∀ r ∈ act.released? s, ∀ newer ∈ r.2, newer.frame ≠ r.1.frame

/-- A guard is released whose saved parent has the frame on its chain by now. -/
def ClosesCycle (s : Host) (act : Act) : Prop :=
  ∃ r ∈ act.released? s, ∃ p ∈ r.1.parent?, s.state.heap.hasAncestor p r.1.frame

instance (s : Host) (act : Act) : Decidable (act.Ready s) :=
  inferInstanceAs (Decidable (∀ e ∈ act.handles, s.state.heap.isLive e))

instance (s : Host) (act : Act) : Decidable (act.InOrder s) :=
  inferInstanceAs (Decidable (∀ r ∈ act.released? s, ∀ newer ∈ r.2, newer.frame ≠ r.1.frame))

instance (s : Host) (act : Act) : Decidable (act.ClosesCycle s) :=
  inferInstanceAs (Decidable (∃ r ∈ act.released? s, ∃ p ∈ r.1.parent?,
    s.state.heap.hasAncestor p r.1.frame))

end Act

/-! ## What a run keeps -/

namespace Host

/-- What holds of a program while it has closed no cycle. -/
structure Ok (s : Host) : Prop where
  acyclic : s.state.heap.Acyclic
  closed : s.state.heap.Closed
  settled : s.state.heap.Settled s.holds
  fits : ∀ g ∈ s.guards, g.Fits s.state.heap

theorem ok_initial : initial.Ok :=
  ⟨by decide, by decide, by decide, fun g hg => by cases hg⟩

theorem frame_mem_holds {t : Host} {g : Guard} (hg : g ∈ t.guards) : g.frame ∈ t.holds :=
  List.mem_append_right _ (List.mem_flatMap.2 ⟨g, hg, g.frame_mem_handles⟩)

/-- What was made is kept when what nothing holds is let die. -/
theorem ok_settle {t : Host} (hac : t.state.heap.Acyclic) (hc : t.state.heap.Closed)
    (hfits : ∀ g ∈ t.guards, g.Fits t.state.heap) : t.settle.Ok where
  acyclic := Heap.acyclic_sweep hac t.holds
  closed := Heap.closed_sweep hc t.holds
  settled := Heap.settled_sweep t.state.heap t.holds
  fits g hg := by
    refine ⟨Heap.isLive_sweep_of_mem (frame_mem_holds hg) (hfits g hg).isLive, fun p hp => ?_⟩
    show p.index < (t.state.heap.sweep t.holds).size
    rw [Heap.size_sweep]
    exact (hfits g hg).saved p hp

variable {s : Host} {h : Heap}

theorem ok_growsTo (hs : s.Ok) (hg : s.state.heap.GrowsTo h) (own : List EnvId) :
    (settle { s.withHeap h with own }).Ok :=
  ok_settle (hg.acyclic hs.closed hs.acyclic) (hg.closed hs.closed) fun g hg' =>
    (hs.fits g hg').mono hg.size_le hg.isLive

theorem ok_sameLinks (hs : s.Ok) (hsame : s.state.heap.SameLinks h) (own : List EnvId)
    {guards : List Guard} (hguards : ∀ g ∈ guards, g.Fits s.state.heap) :
    (settle { s.withHeap h with own, guards }).Ok :=
  ok_settle (hsame.acyclic hs.acyclic) (hsame.closed hs.closed) fun g hg =>
    (hguards g hg).mono (Nat.le_of_eq hsame.size.symm) fun hl => (hsame.isLive _).trans hl

theorem ok_setParent (hs : s.Ok) {e : EnvId} {p : Option EnvId}
    (hac : (s.state.heap.setParent e p).Acyclic) (hp : ∀ q ∈ p, q.index < s.state.heap.size)
    (own : List EnvId) {guards : List Guard} (hguards : ∀ g ∈ guards, g.Fits s.state.heap) :
    (settle { s.withHeap (s.state.heap.setParent e p) with own, guards }).Ok := by
  refine ok_settle hac (Heap.closed_setParent hs.closed e hp) fun g hg => ?_
  refine (hguards g hg).mono (Nat.le_of_eq (Heap.size_modify ..).symm) fun hl => ?_
  exact (Heap.isLive_modify ..).trans hl

/-- Whatever operands are held besides, evaluation starts from a sound state. -/
theorem Ok.sound (hs : s.Ok) (handles : List EnvId) :
    ({ s.state with held := handles ++ s.holds } : State).Sound :=
  ⟨hs.acyclic, Heap.settled_of_subset hs.settled (List.subset_append_right _ _)⟩

/-- Evaluation keeps what a run keeps, whatever it results in. -/
theorem ok_evaluate (hs : s.Ok) (handles : List EnvId) {x : EvalM Value}
    (hx : ∀ t : State, t.Sound → t.heap = s.state.heap → t.LeadsTo (x t).2) :
    (s.evaluate handles x).Ok := by
  have hlead := hx _ (hs.sound handles) rfl
  refine ok_settle hlead.acyclic hlead.closed fun g hg => ?_
  have hheld : g.frame ∈ s.holds := frame_mem_holds hg
  exact (hs.fits g hg).mono hlead.size_le
    (hlead.isLive g.frame (List.mem_append_right handles hheld))

/-- Whatever is done but to release a guard that closes a cycle keeps what a run
keeps. -/
theorem ok_after (mode : Mode) (hs : s.Ok) {act : Act} (hready : act.Ready s)
    (hopen : ¬ act.ClosesCycle s) : (s.after mode act).Ok := by
  have hmade : ∀ e ∈ act.handles, e.index < s.state.heap.size := fun e he =>
    Heap.index_lt_size (hready e he)
  cases act with
  | take e => exact ok_settle hs.acyclic hs.closed hs.fits
  | letGo e => exact ok_settle hs.acyclic hs.closed hs.fits
  | newFrame parent =>
    have hgrows := (Heap.GrowsTo.refl s.state.heap).alloc (f := .empty parent) fun p hp =>
      hmade p (Option.mem_toList.2 hp)
    exact ok_growsTo hs hgrows _
  | copyFrame e parent =>
    have hgrows := (Heap.GrowsTo.refl s.state.heap).alloc
      (f := ⟨s.state.heap.bindings e, parent⟩) fun p hp =>
        hmade p (List.mem_cons_of_mem e (Option.mem_toList.2 hp))
    exact ok_growsTo hs hgrows _
  | bind e name v => exact ok_sameLinks hs (Heap.sameLinks_bind _ e name v) _ hs.fits
  | unbind e name => exact ok_sameLinks hs (Heap.sameLinks_unbind _ e name) _ hs.fits
  | clear e => exact ok_sameLinks hs (Heap.sameLinks_clear _ e) _ hs.fits
  | setParent e parent =>
    simp only [after]
    rcases hr : s.state.heap.reparent e parent with err | h
    · exact hs
    · obtain ⟨-, rfl⟩ := Heap.reparent_eq_ok_iff.1 hr
      exact ok_setParent hs (Heap.acyclic_of_reparent hs.acyclic hr)
        (fun q hq => hmade q (List.mem_cons_of_mem e (Option.mem_toList.2 hq))) _ hs.fits
  | swapParent e parent =>
    simp only [after, Heap.swapParent]
    rcases hr : s.state.heap.reparent e (some parent) with err | h
    · exact hs
    · obtain ⟨-, rfl⟩ := Heap.reparent_eq_ok_iff.1 hr
      have hguards : ∀ g ∈ Guard.parent e (s.state.heap.parent? e) :: s.guards,
          g.Fits s.state.heap := by
        intro g hg
        rcases List.mem_cons.1 hg with rfl | hg
        · exact ⟨hready e (List.mem_cons_self ..), fun p hp => hs.closed e p hp⟩
        · exact hs.fits g hg
      refine ok_setParent hs (Heap.acyclic_of_reparent hs.acyclic hr) (fun q hq => ?_) _ hguards
      exact hmade q (List.mem_cons_of_mem e (Option.mem_toList.2 hq))
  | swapBinding e name v =>
    have hguards : ∀ g ∈ Guard.binding e name (s.state.heap.local? e name) :: s.guards,
        g.Fits s.state.heap := by
      intro g hg
      rcases List.mem_cons.1 hg with rfl | hg
      · exact ⟨hready e (List.mem_cons_self ..), fun p hp => by cases hp⟩
      · exact hs.fits g hg
    exact ok_sameLinks hs (Heap.sameLinks_bind _ e name v) _ hguards
  | release index =>
    simp only [after]
    rcases hg : s.guards[index]? with _ | g
    · exact hs
    · have hfits := hs.fits g (List.mem_of_getElem? hg)
      have hguards : ∀ g' ∈ s.guards.eraseIdx index, g'.Fits s.state.heap := fun g' hg' =>
        hs.fits g' (List.mem_of_mem_eraseIdx hg')
      cases g with
      | parent e previous =>
        -- The one link that no check stands before: it is what `hopen` is about.
        have hac : (s.state.heap.setParent e previous).Acyclic := by
          cases previous with
          | none => exact Heap.acyclic_setParent_none hs.acyclic e
          | some p =>
            refine Heap.acyclic_setParent hs.acyclic fun ha => hopen ?_
            exact ⟨_, Option.mem_map_of_mem (·, s.guards.take index) hg, p, rfl, ha⟩
        exact ok_setParent hs hac hfits.saved _ hguards
      | binding e name previous =>
        exact ok_sameLinks hs (Heap.sameLinks_restoreBinding _ e name previous) _ hguards
  | eval e env =>
    refine ok_evaluate hs _ fun t ht heq => ?_
    exact State.leadsTo_of_heap_eq ht.acyclic (heq ▸ hs.closed)
      (e.onlyLearned_eval ht mode env).heap
  | evalTilde v overscope top =>
    refine ok_evaluate hs _ fun t ht heq => ?_
    exact State.leadsTo_of_heap_eq ht.acyclic (heq ▸ hs.closed)
      (v.onlyLearned_evalTilde ht mode overscope top).heap
  | toFormula v env =>
    refine ok_evaluate hs _ fun t ht heq => ?_
    exact State.leadsTo_of_heap_eq ht.acyclic (heq ▸ hs.closed)
      (v.onlyLearned_toFormula ht mode env).heap
  | evalWithData code data env =>
    show (s.evaluate _ (Overscope.evalWithData mode code data env)).Ok
    refine ok_evaluate hs _ fun t ht heq => ?_
    refine leadsTo_evalWithData mode code data env ht (heq ▸ hs.closed) ?_
    rw [heq]
    exact hmade _ (List.mem_append_left _ (code.scopeOr_mem env))

/-- Releasing a guard whose saved parent has the frame on its chain closes a cycle. -/
theorem not_acyclic_after (mode : Mode) (hs : s.Ok) {act : Act} (hclose : act.ClosesCycle s) :
    ¬ (s.after mode act).state.heap.Acyclic := by
  cases act with
  | release index =>
    obtain ⟨r, hr, p, hp, ha⟩ := hclose
    obtain ⟨g, hg, rfl⟩ := Option.map_eq_some_iff.1 hr
    have hfits := hs.fits g (List.mem_of_getElem? hg)
    cases g with
    | parent e previous =>
      obtain rfl : previous = some p := hp
      simp only [after, hg]
      -- Each frame of the cycle is held by the one before it, so the sweep spares it.
      exact fun hac => hac e (Heap.transGen_sweep _
        (Heap.transGen_setParent_self hs.acyclic hfits.isLive ha))
    | binding e name previous => cases hp
  | _ =>
    obtain ⟨r, hr, _⟩ := hclose
    cases hr

/-! ## Runs -/

theorem ok_of_throughout (mode : Mode) (hs : s.Ok) {acts : List Act}
    (hready : s.Throughout mode (fun t act => act.Ready t) acts)
    (hopen : s.Throughout mode (fun t act => ¬ act.ClosesCycle t) acts) :
    ∀ t ∈ s.met mode acts, t.Ok := by
  induction acts generalizing s with
  | nil =>
    intro t ht
    rw [List.mem_singleton.1 ht]
    exact hs
  | cons act acts ih =>
    intro t ht
    rcases List.mem_cons.1 ht with rfl | ht
    · exact hs
    · exact ih (ok_after mode hs hready.1 hopen.1) hready.2 hopen.2 t ht

theorem open_of_acyclic (mode : Mode) (hs : s.Ok) {acts : List Act}
    (hready : s.Throughout mode (fun t act => act.Ready t) acts)
    (hac : ∀ t ∈ s.met mode acts, t.state.heap.Acyclic) :
    s.Throughout mode (fun t act => ¬ act.ClosesCycle t) acts := by
  induction acts generalizing s with
  | nil => trivial
  | cons act acts ih =>
    have hrest : ∀ t ∈ (s.after mode act).met mode acts, t.state.heap.Acyclic := fun t ht =>
      hac t (List.mem_cons_of_mem s ht)
    have hopen : ¬ act.ClosesCycle s := fun hclose =>
      not_acyclic_after mode hs hclose (hrest _ (mem_met_self mode _ acts))
    exact ⟨hopen, ih (ok_after mode hs hready.1 hopen) hready.2 hrest⟩

/-- From a new interpreter and whatever a program does, in any mode: the scope graph
never has a cycle, so that every walk from a frame to its ancestors ends, exactly when
no guard is released at a time when the parent that it saved has the frame on its own
chain. -/
theorem acyclic_throughout_iff (mode : Mode) {acts : List Act}
    (hready : initial.Throughout mode (fun t act => act.Ready t) acts) :
    (∀ t ∈ initial.met mode acts, t.state.heap.Acyclic ∧ ∀ e, t.state.heap.WalkEnds e) ↔
      initial.Throughout mode (fun t act => ¬ act.ClosesCycle t) acts := by
  constructor
  · intro hac
    exact open_of_acyclic mode ok_initial hready fun t ht => (hac t ht).1
  · intro hopen t ht
    have hok := ok_of_throughout mode ok_initial hready hopen t ht
    exact ⟨hok.acyclic, Heap.acyclic_iff_walkEnds.1 hok.acyclic⟩

/-! ### Two runs -/

/-- The frame ⟨3⟩ goes from ⟨2⟩ to ⟨4⟩ under a guard, then ⟨2⟩ under ⟨4⟩ too. -/
def sideRun : List Act :=
  [.newFrame none, .newFrame (some ⟨2⟩), .newFrame none, .swapParent ⟨3⟩ ⟨4⟩,
    .setParent ⟨2⟩ (some ⟨4⟩), .release 0]

theorem acyclic_throughout_iff_sideRun :
    initial.Throughout .unlimited (fun t act => act.Ready t) sideRun ∧
      ∀ t ∈ initial.met .unlimited sideRun, t.state.heap.Acyclic ∧ ∀ e, t.state.heap.WalkEnds e := by
  have hready : initial.Throughout .unlimited (fun t act => act.Ready t) sideRun := by decide +kernel
  exact ⟨hready, (acyclic_throughout_iff .unlimited hready).2 (by decide +kernel)⟩

/-- The frame ⟨3⟩ goes from ⟨2⟩ to ⟨4⟩ under a guard, then ⟨2⟩ under ⟨3⟩. -/
def cycleRun : List Act :=
  [.newFrame none, .newFrame (some ⟨2⟩), .newFrame none, .swapParent ⟨3⟩ ⟨4⟩,
    .setParent ⟨2⟩ (some ⟨3⟩), .release 0]

/-- The one guard is released in order, and the scope graph has a cycle. -/
theorem not_acyclic_cycleRun :
    initial.Throughout .unlimited (fun t act => act.Ready t) cycleRun ∧
      initial.Throughout .unlimited (fun t act => act.InOrder t) cycleRun ∧
      ¬ ∀ t ∈ initial.met .unlimited cycleRun, t.state.heap.Acyclic := by
  refine ⟨by decide +kernel, by decide +kernel, fun hac => ?_⟩
  have hopen := open_of_acyclic .unlimited ok_initial (by decide +kernel) hac
  exact absurd hopen (by decide +kernel)

end Host

end Overscope
