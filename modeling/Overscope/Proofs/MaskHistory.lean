-- A data mask that is kept, from when it was built. It may be used any number of times, for
-- evaluations in it and beside it, and be pointed at other scopes. As long as nothing else
-- writes its two frames, its `.env` tracks the scope in force, between the uses and at each
-- evaluation in the middle of a use.
import Overscope.Proofs.Order
import Overscope.Proofs.Transparency

namespace Overscope

variable {mask top : EnvId}

/-! ## Uses of an interpreter -/

/-- What an interpreter can be asked for while a mask is kept. -/
inductive Use where
  | request (r : Request)
  | evalWithData (code data : Value) (env : EnvId)

def Request.trace (mode : Mode) : Request → Traced Value
  | .eval e env => e.trace mode env
  | .evalTilde v overscope top => v.traceTilde mode overscope top
  | .toFormula v env => v.traceFormula mode env

theorem Request.run_trace (mode : Mode) (r : Request) : (r.trace mode).run = r.run mode := by
  cases r with
  | eval e env => exact e.run_trace mode env
  | evalTilde v overscope top => exact v.run_traceTilde mode overscope top
  | toFormula v env => exact v.run_traceFormula mode env

namespace Use

def run (mode : Mode) : Use → EvalM Value
  | .request r => r.run mode
  | .evalWithData code data env => Overscope.evalWithData mode code data env

def trace (mode : Mode) : Use → Traced Value
  | .request r => r.trace mode
  | .evalWithData code data env => traceWithData mode code data env

theorem run_trace (mode : Mode) (u : Use) : (u.trace mode).run = u.run mode := by
  cases u with
  | request r => exact r.run_trace mode
  | evalWithData code data env => exact run_traceWithData mode code data env

/-- The state after a use, while its result is held. -/
def after (mode : Mode) (u : Use) (s : State) : State :=
  { (u.run mode s).2 with held := keptBy (u.run mode s).1 ++ (u.run mode s).2.held }

/-- The use does not rewire the mask past its override. In a `~` call the overscope and the top
frame are those of the mask, or have nothing to do with it. Data binds no override that has the
frames of the mask, and is evaluated with in a frame that was made. -/
def Admissible (h : Heap) (mask top : EnvId) : Use → Prop
  | .request (.evalTilde _ overscope t) => Override.Fits mask top ⟨overscope, t⟩
  | .request _ => True
  | .evalWithData code data env => (code.scopeOr env).index < h.size ∧
      ∀ name o, h.DataBinds data name (.override o) → o.Fits mask top

end Use

/-! ## A mask that is kept -/

/-- No override and no mask but its own has the frames of the mask. -/
structure Heap.Unshared (h : Heap) (mask top : EnvId) : Prop where
  overrides : ∀ e name o, h.local? e name = some (.override o) → o.Fits mask top
  masks : ∀ e t, h.isMask e → h.local? e .topEnv = some (.env t) → Override.Fits mask top ⟨e, t⟩

def Value.override? : Value → Option Override
  | .override o => some o
  | _ => none

theorem Heap.unshared_iff {h : Heap} :
    h.Unshared mask top ↔ ∀ e name v, h.local? e name = some v →
      (∀ o ∈ v.override?, o.Fits mask top) ∧
        (name = .topEnv → h.isMask e → ∀ t ∈ v.env?, Override.Fits mask top ⟨e, t⟩) := by
  constructor
  · intro hu e name v hv
    refine ⟨?_, ?_⟩
    · intro o ho
      cases v with
      | override o' =>
        cases ho
        exact hu.overrides e name o hv
      | _ => cases ho
    · rintro rfl hm t ht
      cases v with
      | env t' =>
        cases ht
        exact hu.masks e t hm hv
      | _ => cases ht
  · intro hall
    refine ⟨?_, ?_⟩
    · intro e name o ho
      exact (hall e name _ ho).1 o rfl
    · intro e t hm ht
      exact (hall e .topEnv _ ht).2 rfl hm t rfl

instance (mask top : EnvId) (o : Override) : Decidable (o.Fits mask top) :=
  inferInstanceAs (Decidable (_ → _))

instance (h : Heap) (mask top : EnvId) : Decidable (h.Unshared mask top) :=
  decidable_of_iff' _ (Heap.unshared_iff.trans Heap.forall_local?_iff)

/-- What can happen while the mask is held: uses, and anything else that leaves the two frames
of the mask as they are and does not share them. -/
inductive History (mode : Mode) (mask top : EnvId) : State → State → Prop
  | refl {s : State} : History mode mask top s s
  | use {s t : State} {u : Use} : History mode mask top s t → u.Admissible t.heap mask top →
      History mode mask top s (u.after mode t)
  | elsewhere {s t t' : State} : History mode mask top s t → t'.Sound → t'.heap.Closed →
      mask ∈ t'.held → t'.heap.frame? mask = t.heap.frame? mask →
      t'.heap.frame? top = t.heap.frame? top → t'.heap.Unshared mask top →
      History mode mask top s t'

/-! ## Heaps around the mask -/

namespace Heap

variable {h h' : Heap}

/-- New bindings are of `.env`, to environments. -/
theorem Unshared.of_local (hu : h.Unshared mask top)
    (hsub : ∀ e name v, h'.local? e name = some v →
      h.local? e name = some v ∨ name = .env ∧ ∃ p, v = .env p) : h'.Unshared mask top where
  overrides e name o ho := by
    rcases hsub e name _ ho with hold | ⟨-, p, hp⟩
    · exact hu.overrides e name o hold
    · cases hp
  masks e t hm ht := by
    obtain ⟨flag, hflag⟩ := Option.isSome_iff_exists.1 hm
    have hmask : h.isMask e := by
      rcases hsub e _ _ hflag with hold | ⟨hname, -⟩
      · exact Option.isSome_iff_exists.2 ⟨flag, hold⟩
      · exact absurd hname (by decide)
    rcases hsub e _ _ ht with hold | ⟨hname, -⟩
    · exact hu.masks e t hmask hold
    · exact absurd hname (by decide)

theorem Unshared.pointAt (hu : h.Unshared mask top) (overscope t target : EnvId) :
    (h.pointAt overscope t target).Unshared mask top := by
  apply hu.of_local
  intro e name v hv
  rw [local?_pointAt] at hv
  split at hv
  · next hc =>
    cases hv
    exact Or.inr ⟨hc.2.2.symm, target, rfl⟩
  · exact Or.inl hv

theorem Unshared.sweep (hu : h.Unshared mask top) (held : List EnvId) :
    (h.sweep held).Unshared mask top := by
  apply hu.of_local
  intro e name v hv
  exact Or.inl (local?_of_sweep hv)

/-- The old frames are the same ones, and overrides in new frames fit. -/
theorem Tuned.of_old (ht : h.Tuned mask top)
    (hold : ∀ e, e.index < h.size → h'.frame? e = h.frame? e)
    (hnew : ∀ e, h.size ≤ e.index → ∀ name o,
      h'.local? e name = some (.override o) → o.Fits mask top) : h'.Tuned mask top := by
  apply ht.congr (hold mask (index_lt_size ht.isLive_mask))
  · rw [parent?, hold top (index_lt_size ht.isLive_top), parent?]
  · intro e name o ho
    rcases Nat.lt_or_ge e.index h.size with he | he
    · rw [local?, bindings, hold e he] at ho
      exact ht.alone e name o ho
    · exact hnew e he name o ho

/-- The old frames are the same ones, and the new ones are no masks. -/
theorem Unshared.of_old (hu : h.Unshared mask top)
    (hold : ∀ e, e.index < h.size → h'.frame? e = h.frame? e)
    (hnew : ∀ e, h.size ≤ e.index → ∀ name v, h'.local? e name = some v →
      name ≠ .maskFlag ∧ ∀ o, v = .override o → o.Fits mask top) : h'.Unshared mask top where
  overrides e name o ho := by
    rcases Nat.lt_or_ge e.index h.size with he | he
    · rw [local?, bindings, hold e he] at ho
      exact hu.overrides e name o ho
    · exact (hnew e he name _ ho).2 o rfl
  masks e t hm ht := by
    rcases Nat.lt_or_ge e.index h.size with he | he
    · rw [local?, bindings, hold e he] at ht
      rw [isMask, hasLocal, local?, bindings, hold e he] at hm
      exact hu.masks e t hm ht
    · obtain ⟨flag, hflag⟩ := Option.isSome_iff_exists.1 hm
      exact absurd rfl (hnew e he _ flag hflag).1

/-- An override of later frames has nothing to do with the mask. -/
theorem Tuned.fits_of_new (ht : h.Tuned mask top) {o : Override} (hm : h.size ≤ o.mask.index)
    (hn : h.size ≤ o.top.index) : o.Fits mask top := by
  have hmask := index_lt_size ht.isLive_mask
  have htop := index_lt_size ht.isLive_top
  intro h
  rcases h with heq | heq | heq
  · rw [heq] at hm
    omega
  · rw [heq] at hn
    omega
  · rw [heq] at hn
    omega

/-- A new mask is tuned, if no other override has its frames. -/
theorem FreshMask.tuned {data : Value} {scope : EnvId} (hf : h.FreshMask data scope h')
    (halone : ∀ e name o, h'.local? e name = some (.override o) →
      o.Fits h.newMask h.newBottom) : h'.Tuned h.newMask h.newBottom := by
  refine ⟨⟨scope, hf.pointsTo⟩, ?_, hf.link_mask, halone⟩
  rw [hf.local?_mask]
  rfl

/-- A new mask for data, whose overrides fit, beside this one. -/
theorem Tuned.freshMask (ht : h.Tuned mask top) {data : Value} {scope : EnvId}
    (hf : h.FreshMask data scope h')
    (hdata : ∀ name o, h.DataBinds data name (.override o) → o.Fits mask top) :
    h'.Tuned mask top := by
  apply ht.of_old hf.old
  intro e he name o ho
  have hlive := isLive_of_local? ho
  rcases eq_newBottom_or_newMask hf.size he hlive with rfl | rfl
  · rcases hf.binds_bottom ho with ⟨-, source, absence, hpronoun⟩ | hbound
    · cases hpronoun
    · exact hdata name o hbound
  · rw [hf.local?_mask] at ho
    obtain rfl := override_of_maskBindings ho
    exact ht.fits_of_new h.size_le_newMask h.size_le_newBottom

/-- A new overscope without data, beside this mask. -/
theorem Tuned.addQuosureMask (ht : h.Tuned mask top) (scope : EnvId) :
    (h.addQuosureMask scope).2.Tuned mask top := by
  apply ht.of_old (h.frame?_addQuosureMask_of_old scope)
  intro e he name o ho
  rcases local?_addQuosureMask he ho with ⟨-, hv⟩ | ⟨-, hv⟩
  · cases hv
  · cases hv
    exact ht.fits_of_new (Nat.le_refl _) (Nat.le_refl _)

end Heap

/-! ## Between uses -/

/-- A state in which the mask is held and is not shared, and its slots agree. -/
structure State.Keeps (mask top : EnvId) (s : State) : Prop where
  tuned : s.Tuned mask top
  closed : s.heap.Closed
  held : mask ∈ s.held
  unshared : s.heap.Unshared mask top

namespace State.Keeps

variable {s t : State}

/-- What was learned, and what else is held, do not matter. -/
theorem learns (hs : s.Keeps mask top) (hl : s.LearnsTo t) (kept : List EnvId) :
    ({ t with held := kept ++ t.held } : State).Keeps mask top := by
  have ht := hs.tuned.learns hl
  refine ⟨⟨⟨ht.sound.acyclic, ?_⟩, ht.heap⟩, ?_, ?_, ?_⟩
  · exact Heap.settled_of_subset ht.sound.settled (List.subset_append_right _ _)
  · show t.heap.Closed
    rw [hl.heap]
    exact hs.closed
  · apply List.mem_append_right
    rw [hl.held]
    exact hs.held
  · show t.heap.Unshared mask top
    rw [hl.heap]
    exact hs.unshared

/-- The state after a mask was pointed, this one or another one. -/
theorem pointed (hs : s.Keeps mask top) {other u target : EnvId} (hm : s.heap.isMask other)
    (hu : s.heap.local? other .topEnv = some (.env u)) (hoff : s.heap.hasAncestor target u = false)
    (hmade : target.index < s.heap.size) :
    ({ s with heap := (s.heap.pointAt other u target).sweep s.held } : State).Keeps mask top := by
  have hfit := hs.unshared.masks other u hm hu
  have hac := hs.tuned.sound.acyclic
  have hac' := Heap.acyclic_pointAt hac hoff other
  refine ⟨⟨⟨?_, ?_⟩, ?_⟩, ?_, hs.held, ?_⟩
  · exact Heap.acyclic_sweep hac' _
  · exact Heap.settled_sweep _ _
  · exact (hs.tuned.heap.pointAt hac hfit target).sweep hs.held
  · exact Heap.closed_sweep (Heap.closed_pointAt hs.closed hmade other u) _
  · exact (hs.unshared.pointAt other u target).sweep _

/-- After an evaluation in another mask, which was built for it and was taken down. -/
theorem inOwnMask (hs : s.Keeps mask top) {build : Heap → Except EvalError (EnvId × Heap)}
    {takeDown : Heap → EnvId → Heap} {body : EnvId → EvalM Value}
    (hback : ∀ m, PutsBack (body m))
    (hbuild : ∀ m h, build s.heap = .ok (m, h) → h.Settled (m :: s.held) ∧
      (takeDown h m).Acyclic ∧ (takeDown h m).Closed ∧ (takeDown h m).Tuned mask top ∧
      (takeDown h m).Unshared mask top) :
    let out := Overscope.inOwnMask build takeDown body s
    ({ out.2 with held := keptBy out.1 ++ out.2.held } : State).Keeps mask top := by
  intro out
  rcases hb : build s.heap with err | ⟨m, h⟩
  · have hrun : out = (.error err, s) := inOwnMask_error hb
    rw [hrun]
    exact hs.learns (.refl s) []
  · obtain ⟨hset, hac, hc, htuned, hunshared⟩ := hbuild m h hb
    have hrun := @inOwnMask_ok build takeDown body s m h hb hset (hback m)
    have hheld : mask ∈ keptBy (body m { s with heap := h, held := m :: s.held }).1 ++ s.held :=
      List.mem_append_right _ hs.held
    simp only [out, hrun]
    refine ⟨⟨⟨?_, ?_⟩, ?_⟩, ?_, hheld, ?_⟩
    · exact Heap.acyclic_sweep hac _
    · exact Heap.settled_sweep _ _
    · exact htuned.sweep hheld
    · exact Heap.closed_sweep hc _
    · exact hunshared.sweep _

end State.Keeps

namespace Heap

variable {h t : Heap}

/-- What is left of another mask. -/
theorem Tuned.stripped (ht : h.Tuned mask top) (hu : h.Unshared mask top) {scope : EnvId}
    (hstrip : h.StrippedMask scope t) : t.Tuned mask top ∧ t.Unshared mask top := by
  have hnone : ∀ e, h.size ≤ e.index → ∀ name v, t.local? e name ≠ some v := by
    intro e he name v hv
    have hlive := isLive_of_local? hv
    rcases eq_newBottom_or_newMask hstrip.size he hlive with rfl | rfl
    · rw [local?, bindings, hstrip.bottom] at hv
      cases hv
    · rw [local?, bindings, hstrip.mask] at hv
      cases hv
  constructor
  · apply ht.of_old hstrip.old
    intro e he name o ho
    exact absurd ho (hnone e he name _)
  · apply hu.of_old hstrip.old
    intro e he name v hv
    exact absurd hv (hnone e he name v)

theorem Unshared.addQuosureMask (hu : h.Unshared mask top) (ht : h.Tuned mask top)
    (scope : EnvId) : (h.addQuosureMask scope).2.Unshared mask top := by
  apply hu.of_old (h.frame?_addQuosureMask_of_old scope)
  intro e he name v hv
  rcases local?_addQuosureMask he hv with ⟨rfl, rfl⟩ | ⟨rfl, rfl⟩
  · refine ⟨by decide, ?_⟩
    intro o ho
    cases ho
  · refine ⟨by decide, ?_⟩
    intro o ho
    cases ho
    exact ht.fits_of_new (Nat.le_refl _) (Nat.le_refl _)

end Heap

/-! ## One use -/

variable {s t : State} {mode : Mode}

/-- The states in which the evaluation of a use starts: where it is asked for, or where a mask is
pointed, or where a mask was built for it. -/
inductive Use.Starts (s : State) : Use → State → Prop
  | request {r : Request} : Starts s (.request r) s
  | pointed {code : Value} {env other t : EnvId} : s.heap.isMask other →
      s.heap.local? other .topEnv = some (.env t) →
      s.heap.hasAncestor (code.scopeOr env) t = false →
      Starts s (.evalWithData code (.env other) env)
        { s with heap := (s.heap.pointAt other t (code.scopeOr env)).sweep s.held }
  | withoutData {code : Value} {env : EnvId} : Starts s (.evalWithData code .null env)
      { s with heap := (s.heap.addQuosureMask (code.scopeOr env)).2
               held := (s.heap.addQuosureMask (code.scopeOr env)).1 :: s.held }
  | ofData {code data : Value} {env m : EnvId} {h : Heap} :
      s.heap.maskOf data (code.scopeOr env) = .ok (m, h) →
      Starts s (.evalWithData code data env) { s with heap := h, held := m :: s.held }

/-- Of an evaluation in a mask of its own the visits are those of its body, in the state in which
that mask was built. -/
theorem visits_traceInOwnMask {build : Heap → Except EvalError (EnvId × Heap)}
    {takeDown : Heap → EnvId → Heap} {e : Expr} {v : Visit}
    (hv : v ∈ (traceInOwnMask build takeDown (e.trace mode)).visits s) :
    ∃ m h, build s.heap = .ok (m, h) ∧
      v ∈ (e.trace mode m).visits { s with heap := h, held := m :: s.held } := by
  simp only [traceInOwnMask] at hv
  split at hv
  · cases hv
  · next m h hb => exact ⟨m, h, hb, hv⟩

/-- An invariant that each step of an evaluation keeps holds wherever an evaluation is started
during a use, if it holds where the use starts. -/
theorem Preserved.visits_use {I : State → Prop} {R : Override → Prop}
    (hI : Preserved (fun _ => True) I R fun _ => True) {u : Use} (hstart : ∀ t, u.Starts s t → I t)
    (htilde : ∀ v overscope t, u = .request (.evalTilde v overscope t) → R ⟨overscope, t⟩) :
    ∀ v ∈ (u.trace mode).visits s, I v.state := by
  have heval : ∀ {e : Expr} {env : EnvId} {t : State}, I t →
      ∀ v ∈ (e.trace mode env).visits t, I v.state :=
    fun {e env t} ht v hv =>
      ((e.preserves_trace hI mode (fun _ _ => trivial) trivial).visits ht v hv).2
  cases u with
  | request r =>
    have hs := hstart s .request
    cases r with
    | eval e env => exact heval hs
    | evalTilde v overscope t =>
      exact fun w hw => ((v.preserves_traceTilde hI mode (fun _ _ => trivial)
        (htilde v overscope t rfl)).visits hs w hw).2
    | toFormula v env =>
      exact fun w hw => ((v.preserves_traceFormula hI mode (fun _ _ => trivial)
        trivial).visits hs w hw).2
  | evalWithData code data env =>
    unfold Use.trace
    rcases hfound : data.env?.filter s.heap.isMask with _ | other
    · rw [visits_traceWithData_of_none hfound]
      unfold traceInData
      intro v hv
      split at hv
      · obtain ⟨m, h, hb, hin⟩ := visits_traceInOwnMask hv
        cases hb
        exact heval (hstart _ .withoutData) v hin
      · obtain ⟨m, h, hb, hin⟩ := visits_traceInOwnMask hv
        exact heval (hstart _ (.ofData hb)) v hin
    · obtain ⟨hdata, hm⟩ := Option.filter_eq_some_iff.1 hfound
      rw [visits_traceWithData_of_some hfound]
      rcases pointMask_run other (code.scopeOr env) s with ⟨err, hrun⟩ | ⟨t, ht, hoff, hrun⟩
      · rw [Traced.visits_silent_bind_error hrun]
        exact List.forall_mem_nil _
      · rw [Traced.visits_silent_bind_ok hrun]
        have hother : data = .env other := by
          cases data with
          | env e =>
            cases hdata
            rfl
          | _ => cases hdata
        subst hother
        exact heval (hstart _ (.pointed hm ht hoff))

namespace State.Keeps

/-- The state in which another mask for data was built. -/
theorem tuned_of_maskOf (hs : s.Keeps mask top) {data : Value} {scope m : EnvId} {h : Heap}
    (hscope : scope.index < s.heap.size)
    (hdata : ∀ name o, s.heap.DataBinds data name (.override o) → o.Fits mask top)
    (hb : s.heap.maskOf data scope = .ok (m, h)) :
    ({ s with heap := h, held := m :: s.held } : State).Tuned mask top := by
  have hgrows := Heap.growsByMask_maskOf hscope hb
  obtain ⟨rfl, hfresh⟩ := Heap.freshMask_maskOf hb
  refine ⟨⟨?_, ?_⟩, ?_⟩
  · exact hgrows.grows.acyclic hs.closed hs.tuned.sound.acyclic
  · exact hgrows.settled hs.tuned.sound.settled
  · exact hs.tuned.heap.freshMask hfresh hdata

/-- The state in which another overscope without data was built. -/
theorem tuned_of_addQuosureMask (hs : s.Keeps mask top) {scope : EnvId}
    (hscope : scope.index < s.heap.size) :
    ({ s with heap := (s.heap.addQuosureMask scope).2
              held := (s.heap.addQuosureMask scope).1 :: s.held } : State).Tuned mask top := by
  have hgrows := Heap.growsByMask_addQuosureMask hscope
  refine ⟨⟨?_, ?_⟩, ?_⟩
  · exact hgrows.grows.acyclic hs.closed hs.tuned.sound.acyclic
  · exact hgrows.settled hs.tuned.sound.settled
  · exact hs.tuned.heap.addQuosureMask scope

/-- Wherever an evaluation is started during a use, the slots agree. -/
theorem tuned_of_visit (hs : s.Keeps mask top) {u : Use}
    (hu : u.Admissible s.heap mask top) :
    ∀ v ∈ (u.trace mode).visits s, v.state.Tuned mask top := by
  refine (preserved_tuned mask top).visits_use (fun t ht => ?_) fun v overscope t h => ?_
  · cases ht with
    | request => exact hs.tuned
    | pointed hm htop hoff => exact (hs.pointed hm htop hoff hu.1).tuned
    | withoutData => exact hs.tuned_of_addQuosureMask hu.1
    | ofData hb => exact hs.tuned_of_maskOf hu.1 hu.2 hb
  · rw [h] at hu
    exact hu

/-- After a use the mask is kept as before. -/
theorem after (hs : s.Keeps mask top) {u : Use} (hu : u.Admissible s.heap mask top) :
    (u.after mode s).Keeps mask top := by
  cases u with
  | request r => exact hs.learns (r.putsBack_run mode s hs.tuned.sound.settled) _
  | evalWithData code data env =>
    obtain ⟨hscope, hdata⟩ := hu
    unfold Use.after Use.run evalWithData
    simp only [Attempt.bind_run, Attempt.read]
    rcases hfound : data.env?.filter s.heap.isMask with _ | other
    · simp only
      unfold evalInOwnMask
      split
      · apply hs.inOwnMask (code.body.putsBack_eval mode)
        intro m h hb
        cases hb
        have hbuilt := hs.tuned_of_addQuosureMask hscope
        have hgrows := Heap.growsByMask_addQuosureMask hscope
        exact ⟨hbuilt.sound.settled, hbuilt.sound.acyclic, hgrows.grows.closed hs.closed,
          hbuilt.heap, hs.unshared.addQuosureMask hs.tuned.heap _⟩
      · apply hs.inOwnMask (code.body.putsBack_eval mode)
        intro m h hb
        have hbuilt := hs.tuned_of_maskOf hscope hdata hb
        have hgrows := Heap.growsByMask_maskOf hscope hb
        have hsame := Heap.sameLinks_stripMask h m
        obtain ⟨rfl, hfresh⟩ := Heap.freshMask_maskOf hb
        exact ⟨hbuilt.sound.settled, hsame.acyclic hbuilt.sound.acyclic,
          hsame.closed (hgrows.grows.closed hs.closed),
          hs.tuned.heap.stripped hs.unshared hfresh.stripMask⟩
    · have hm : s.heap.isMask other := (Option.filter_eq_some_iff.1 hfound).2
      simp only [evalInMask]
      rcases pointMask_run other (code.scopeOr env) s with ⟨err, hrun⟩ | ⟨t, ht, hoff, hrun⟩
      · rw [Attempt.bind_run_error hrun]
        exact hs.learns (.refl s) []
      · rw [Attempt.bind_run_ok hrun]
        have hpointed := hs.pointed hm ht hoff hscope
        exact hpointed.learns
          (code.body.putsBack_eval mode other _ hpointed.tuned.sound.settled) _

/-- Whatever happens to a mask that is kept, it is kept. -/
theorem history (hs : s.Keeps mask top) (ht : History mode mask top s t) : t.Keeps mask top := by
  induction ht with
  | refl => exact hs
  | use _ hu ih => exact ih.after hu
  | elsewhere _ hsound hclosed hheld hmask htop hunshared ih =>
    refine ⟨⟨hsound, ?_⟩, hclosed, hheld, hunshared⟩
    apply ih.tuned.heap.congr hmask _ hunshared.overrides
    rw [Heap.parent?, htop, Heap.parent?]

end State.Keeps

/-! ## From when it was built -/

/-- A mask that was built from data, or without, and that nothing but its uses writes, tracks
the scope in force for good: in each state between its uses, and at each evaluation that is
started in the course of one. So at all of these points an inlined quosure without a scope of
its own gives in the mask what its right-hand side gives. -/
theorem tracks_throughout (mode : Mode) {h : Heap} {data : Value} {parent : EnvId}
    (hbuilt : h.maskOf data parent = .ok (mask, s.heap) ∨
      h.maskOver none none parent = .ok (mask, s.heap))
    (hs : s.Sound) (hc : s.heap.Closed) (hheld : mask ∈ s.held)
    (halone : s.heap.Unshared mask h.newBottom) (ht : History mode mask h.newBottom s t) :
    (t.heap.Tracks mask h.newBottom ∧ t.Transparent mask) ∧
      ∀ u : Use, u.Admissible t.heap mask h.newBottom → ∀ v ∈ (u.trace mode).visits t,
        v.state.heap.Tracks mask h.newBottom ∧ v.state.Transparent mask := by
  have htuned : s.heap.Tuned mask h.newBottom := by
    rcases hbuilt with hb | hb
    · obtain ⟨rfl, hfresh⟩ := Heap.freshMask_maskOf hb
      exact hfresh.tuned halone.overrides
    · obtain ⟨rfl, hfresh⟩ := @Heap.freshMask_maskOf h s.heap .null parent mask hb
      exact hfresh.tuned halone.overrides
  have hkeeps : s.Keeps mask h.newBottom := ⟨⟨hs, htuned⟩, hc, hheld, halone⟩
  have hkept := hkeeps.history ht
  refine ⟨⟨hkept.tuned.heap.tracks, hkept.tuned.transparent⟩, ?_⟩
  intro u hu v hv
  have hvisit := hkept.tuned_of_visit hu v hv
  exact ⟨hvisit.heap.tracks, hvisit.transparent⟩

/-- The product of `x` and of a quosure without a scope over it, to be evaluated in the global
environment. -/
def Formula.sampleTwice : Formula :=
  .quosure (.call (.inlined (.arithmetic .mul)) (.ofList [.symbol ⟨12⟩,
    .const (Formula.quosure (.symbol ⟨12⟩) none).toValue])) (some .global)

/-- The mask ⟨3⟩ was pointed at the base frame. Then four evaluations are started in it, the
last one with both scopes spliced in. -/
theorem tracks_throughout_sample :
    let pointed := (Use.evalWithData (.code (.symbol ⟨12⟩)) (.env ⟨3⟩) .base).after .unlimited
      State.sampleMask
    let nested := Use.request (.evalTilde Formula.sampleTwice.toValue ⟨3⟩ ⟨2⟩)
    State.sampleMask.Sound ∧ State.sampleMask.heap.Unshared ⟨3⟩ ⟨2⟩ ∧
      pointed.heap.parent? ⟨2⟩ = some .base ∧ pointed.Transparent ⟨3⟩ ∧
      (((nested.trace .unlimited).visits pointed).map fun v => v.state.heap.parent? ⟨2⟩) =
        [some .global, some .global, some .global, some .global] ∧
      ∀ v ∈ (nested.trace .unlimited).visits pointed,
        v.state.heap.Tracks ⟨3⟩ ⟨2⟩ ∧ v.state.Transparent ⟨3⟩ := by
  intro pointed nested
  have hs : State.sampleMask.Sound := ⟨by decide +kernel, by decide +kernel⟩
  have halone : State.sampleMask.heap.Unshared ⟨3⟩ ⟨2⟩ := by decide +kernel
  have hbuilt : Heap.initial.maskOf .sampleData .global = .ok (⟨3⟩, State.sampleMask.heap) := rfl
  have hfree : ∀ name o, State.sampleMask.heap.DataBinds (.env ⟨3⟩) name (.override o) →
      o.Fits ⟨3⟩ ⟨2⟩ := fun name o ho => halone.overrides ⟨3⟩ name o ho
  have hhistory : History .unlimited ⟨3⟩ ⟨2⟩ State.sampleMask pointed :=
    .use .refl ⟨by decide, hfree⟩
  obtain ⟨⟨-, htransparent⟩, hvisits⟩ := tracks_throughout .unlimited (Or.inl hbuilt) hs
    (by decide +kernel) (by decide) halone hhistory
  refine ⟨hs, halone, by decide +kernel, htransparent, by decide +kernel, ?_⟩
  exact hvisits nested (fits_self ⟨3⟩ ⟨2⟩)

end Overscope
