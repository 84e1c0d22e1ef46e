-- Who holds whom while an evaluation runs with a mask of its own. Every frame holds frames
-- that were made before it, and a scope that is in force was there before the mask, so
-- nothing that was there before holds the mask, and no frame of it holds itself. Splicing
-- adds two edges and keeps this, since both lead to such a scope.
import Overscope.Proofs.DataEval
import Overscope.Proofs.Preservation
import Overscope.Proofs.FreshMask

open Relation

namespace Overscope

theorem Table.mem_values_iff {κ α : Type} [DecidableEq κ] {t : Table κ α} {a : α} :
    a ∈ t.values ↔ ∃ k, t.get? k = some a := by
  refine ⟨fun ha => ?_, fun ⟨k, hk⟩ => mem_values_of_get? hk⟩
  obtain ⟨⟨k, b⟩, hmem, rfl⟩ := List.mem_map.1 ha
  refine ⟨k, ?_⟩
  obtain ⟨before, after, hsplit⟩ := List.append_of_mem hmem
  refine List.lookup_eq_some_iff.2 ⟨before, after, hsplit, fun p hp => ?_⟩
  have hnodup := t.nodup
  rw [hsplit, List.map_append, List.map_cons, List.nodup_append] at hnodup
  have hne := hnodup.2.2 p.1 (List.mem_map_of_mem hp) k (List.mem_cons_self ..)
  simpa using Ne.symm hne

namespace Heap

/-! ## Holders -/

/-- A frame keeps another one alive: its parent, or what one of its bindings holds. -/
def Holds (h : Heap) (e x : EnvId) : Prop :=
  h.Link e x ∨ ∃ name v, h.local? e name = some v ∧ x ∈ v.handles

theorem holds_iff {h : Heap} {e x : EnvId} :
    h.Holds e x ↔ ∃ f, h.frame? e = some f ∧ x ∈ f.handles := by
  unfold Holds Link parent? local? bindings
  rcases h.frame? e with _ | f
  · simp
  · simp only [Option.bind_some, Option.map_some, Option.getD_some, Option.some.injEq,
      exists_eq_left', Frame.handles, List.mem_append, Option.mem_toList,
      List.mem_flatMap, Table.mem_values_iff]
    refine or_congr Iff.rfl ⟨?_, ?_⟩
    · rintro ⟨name, v, hv, hx⟩
      exact ⟨v, ⟨name, hv⟩, hx⟩
    · rintro ⟨v, ⟨name, hv⟩, hx⟩
      exact ⟨name, v, hv, hx⟩

theorem mem_handles_iff_holds {h : Heap} {x : EnvId} : x ∈ h.handles ↔ ∃ e, h.Holds e x := by
  simp only [mem_handles_iff, holds_iff]

theorem Holds.isLive {h : Heap} {e x : EnvId} (hx : h.Holds e x) : h.isLive e := by
  obtain ⟨f, hf, -⟩ := holds_iff.1 hx
  rw [Heap.isLive, hf]
  rfl

theorem Holds.of_sweep {h : Heap} {held : List EnvId} {e x : EnvId}
    (hx : (h.sweep held).Holds e x) : h.Holds e x := by
  obtain ⟨f, hf, hxf⟩ := holds_iff.1 hx
  exact holds_iff.2 ⟨f, frame?_of_sweep hf, hxf⟩

/-- The frames from the index `n` on are held by none of the others, and none of them keeps
itself alive. -/
structure Detached (n : Nat) (h : Heap) : Prop where
  old : ∀ e x, h.Holds e x → e.index < n → x.index < n
  noCycle : ∀ e, n ≤ e.index → ¬ TransGen h.Holds e e

/-- The first `n` frames hold none but each other, every other frame holds those and frames
made before it, and each `.env` is one of the first `n`. -/
structure Layered (n : Nat) (h : Heap) : Prop where
  falls : ∀ e x, h.Holds e x → x.index < max n e.index
  env : ∀ e x, h.local? e .env = some (.env x) → x.index < n

namespace Layered

variable {n : Nat} {h : Heap}

/-- Around a cycle the indices would fall. -/
theorem detached (hl : h.Layered n) : h.Detached n where
  old e x hx he := by
    have hlt := hl.falls e x hx
    omega
  noCycle e he hcyc := by
    have hfall : ∀ x, TransGen h.Holds e x → x.index < e.index := by
      intro x hx
      induction hx with
      | single hx =>
        have hlt := hl.falls e _ hx
        omega
      | @tail y z _ hyz ih =>
        have hlt := hl.falls y z hyz
        omega
    exact absurd (hfall e hcyc) (Nat.lt_irrefl _)

/-- What lives on without the first `n` frames is held from outside. -/
theorem exists_held (hl : h.Layered n) {held : List EnvId} (hs : h.Settled held) {e : EnvId}
    (he : n ≤ e.index) (hlive : h.isLive e) :
    ∃ r ∈ held, n ≤ r.index ∧ ReflTransGen h.Holds r e := by
  -- A holder that is not outside is a newer frame, and there is a newest one.
  induction hk : h.size - e.index using Nat.strong_induction_on generalizing e with
  | _ k ih =>
    rcases settled_iff.1 hs e hlive with hin | hin
    · obtain ⟨g, hg⟩ := mem_handles_iff_holds.1 hin
      have hlt := hl.falls g e hg
      have hsize := index_lt_size hg.isLive
      obtain ⟨r, hr, hrn, hpath⟩ := ih (h.size - g.index) (by omega) (e := g) (by omega)
        hg.isLive rfl
      exact ⟨r, hr, hrn, hpath.tail hg⟩
    · exact ⟨e, hin, he, .refl⟩

/-- Nothing but old frames is held where every handle is to one. -/
theorem of_handles (hmade : ∀ x ∈ h.handles, x.index < n) : h.Layered n where
  falls e x hx := by
    have hlt := hmade x (mem_handles_iff_holds.2 ⟨e, hx⟩)
    omega
  env e x hx := hmade x (mem_handles_of_local? hx (List.mem_singleton_self x))

theorem sweep (hl : h.Layered n) (held : List EnvId) : (h.sweep held).Layered n where
  falls e x hx := hl.falls e x hx.of_sweep
  env e x hx := hl.env e x (local?_of_sweep hx)

theorem setParent (hl : h.Layered n) (e : EnvId) {p : EnvId} (hp : p.index < n) :
    (h.setParent e (some p)).Layered n where
  falls a x hx := by
    rcases hx with hlink | ⟨name, v, hv, hx⟩
    · rcases link_setParent_iff.1 hlink with ⟨-, -, heq⟩ | ⟨-, hold⟩
      · cases heq
        omega
      · exact hl.falls a x (Or.inl hold)
    · rw [local?_setParent] at hv
      exact hl.falls a x (Or.inr ⟨name, v, hv, hx⟩)
  env a x hx := by
    rw [local?_setParent] at hx
    exact hl.env a x hx

theorem bind (hl : h.Layered n) (e : EnvId) {name : Name} {v : Value}
    (hv : ∀ x ∈ v.handles, x.index < max n e.index)
    (henv : name = .env → ∀ x ∈ v.handles, x.index < n) : (h.bind e name v).Layered n where
  falls a x hx := by
    rcases hx with hlink | ⟨k, w, hw, hx⟩
    · exact hl.falls a x (Or.inl ((parent?_bind h e a name v).symm.trans hlink))
    · rw [local?_bind] at hw
      split at hw
      · next hc =>
        cases hw
        rw [← hc.1]
        exact hv x hx
      · exact hl.falls a x (Or.inr ⟨k, w, hw, hx⟩)
  env a x hx := by
    rw [local?_bind] at hx
    split at hx
    · next hc =>
      cases hx
      exact henv hc.2.2 x (List.mem_singleton_self x)
    · exact hl.env a x hx

theorem bind_old (hl : h.Layered n) (e : EnvId) (name : Name) {v : Value}
    (hv : ∀ x ∈ v.handles, x.index < n) : (h.bind e name v).Layered n :=
  hl.bind e (fun x hx => Nat.lt_of_lt_of_le (hv x hx) (Nat.le_max_left ..)) fun _ => hv

/-- A new frame that binds old environments alone. -/
theorem alloc (hl : h.Layered n) {f : Frame} (hp : ∀ p ∈ f.parent, p.index < max n h.size)
    (hb : ∀ name v, f.bindings.get? name = some v → ∀ x ∈ v.handles, x.index < n) :
    (h.alloc f).2.Layered n where
  falls e x hx := by
    by_cases he : e = (h.alloc f).1
    · subst he
      show x.index < max n h.size
      rcases hx with hlink | ⟨name, v, hv, hx⟩
      · rw [Link, parent?, frame?_alloc_self] at hlink
        exact hp x hlink
      · rw [local?, bindings, frame?_alloc_self] at hv
        have hlt := hb name v hv x hx
        omega
    · refine hl.falls e x (holds_iff.2 ?_)
      obtain ⟨g, hg, hxg⟩ := holds_iff.1 hx
      rw [frame?_alloc, if_neg he] at hg
      exact ⟨g, hg, hxg⟩
  env e x hx := by
    rw [local?, bindings, frame?_alloc] at hx
    split at hx
    · exact hb .env _ hx x (List.mem_singleton_self x)
    · exact hl.env e x hx

/-! ### Masks -/

theorem addMask (hl : h.Layered n) {bottom scope : EnvId} (hbottom : bottom.index < max n h.size)
    (hscope : scope.index < n) : (h.addMask bottom bottom scope).2.Layered n := by
  have hframe : (h.alloc (.empty (some bottom))).2.Layered n := by
    refine hl.alloc (fun p hp => ?_) fun name v hv => by cases hv
    cases hp
    exact hbottom
  have hnone : ∀ v : Value, v.handles = [] → ∀ x ∈ v.handles, x.index < n := by
    intro v hv x hx
    rw [hv] at hx
    cases hx
  have hold : ∀ x ∈ (Value.env scope).handles, x.index < n := by
    intro x hx
    rw [List.mem_singleton.1 hx]
    exact hscope
  have hbase := ((hframe.bind_old ⟨h.size⟩ .tilde (hnone (.override ⟨⟨h.size⟩, bottom⟩) rfl)).bind_old
    ⟨h.size⟩ .maskFlag (hnone (.bool true) rfl)).bind_old ⟨h.size⟩ .env hold
  refine hbase.bind ⟨h.size⟩ (fun x hx => ?_) fun hname => absurd hname (by decide)
  rw [List.mem_singleton.1 hx]
  exact hbottom

theorem addQuosureMask (hl : h.Layered n) {scope : EnvId} (hscope : scope.index < n) :
    (h.addQuosureMask scope).2.Layered n := by
  have hframe : (h.alloc (.empty (some scope))).2.Layered n := by
    refine hl.alloc (fun p hp => ?_) fun name v hv => by cases hv
    cases hp
    omega
  refine (hframe.bind_old ⟨h.size⟩ .tilde (fun x hx => by cases hx)).bind_old ⟨h.size⟩ .env ?_
  intro x hx
  rw [List.mem_singleton.1 hx]
  exact hscope

theorem maskWithPronoun (hl : h.Layered n) {h' : Heap} {bottom scope mask : EnvId}
    {source : DataSource} {absence : String} (hbottom : bottom.index < h.size)
    (hscope : scope.index < n) (hsource : ∀ x ∈ source.handles, x.index < n)
    (hm : h.maskWithPronoun bottom source absence scope = .ok (mask, h')) : h'.Layered n := by
  rw [Heap.maskWithPronoun, maskOver_self] at hm
  have hdata : (h.bind bottom .data (.pronoun source absence)).Layered n :=
    hl.bind_old bottom .data hsource
  have hbelow : bottom.index < max n (h.bind bottom .data (.pronoun source absence)).size := by
    rw [Heap.bind, size_modify]
    omega
  have hbuilt := hdata.addMask hbelow hscope
  rw [Except.ok.inj hm] at hbuilt
  exact hbuilt

theorem foldl_bind (hl : h.Layered n) (e : EnvId) (ps : List (Name × Value))
    (hps : ∀ p ∈ ps, ∀ x ∈ p.2.handles, x.index < n) :
    (ps.foldl (fun h (name, v) => h.bind e name v) h).Layered n := by
  induction ps generalizing h with
  | nil => exact hl
  | cons p ps ih =>
    rw [List.forall_mem_cons] at hps
    exact ih (hl.bind_old e p.1 hps.1) hps.2

theorem addData (hl : h.Layered n) {entries : Entries} {scope : EnvId} (hscope : scope.index < n)
    (hdata : ∀ x ∈ entries.handles, x.index < n) : (h.addData entries scope).2.Layered n := by
  have hframe : (h.alloc (.empty (some scope))).2.Layered n := by
    refine hl.alloc (fun p hp => ?_) fun name v hv => by cases hv
    cases hp
    omega
  refine hframe.foldl_bind _ entries.named fun ⟨name, v⟩ hp x hx => ?_
  exact hdata x (entries.mem_handles_iff.2 ⟨_, (Entries.mem_named_iff.1 hp).1, hx⟩)

/-- The mask of any data that was there before. -/
theorem maskOf {h' : Heap} {data : Value} {scope mask : EnvId}
    (hmade : ∀ x ∈ h.handles, x.index < h.size) (hscope : scope.index < h.size)
    (hdata : ∀ x ∈ data.handles, x.index < h.size)
    (hm : h.maskOf data scope = .ok (mask, h')) : h'.Layered h.size := by
  have hl : h.Layered h.size := .of_handles hmade
  have hparent : ∀ p ∈ some scope, p.index < max h.size h.size := by
    intro p hp
    cases hp
    omega
  have hnew : ∀ h₁ : Heap, h₁.size = h.size + 1 → (⟨h.size⟩ : EnvId).index < h₁.size := by
    intro h₁ hsize
    rw [hsize]
    exact Nat.lt_succ_self _
  cases data with
  | null =>
    have hframe : (h.alloc (.empty (some scope))).2.Layered h.size :=
      hl.alloc hparent fun name v hv => by cases hv
    have hbuilt := hframe.addMask
      (Nat.lt_of_lt_of_le (hnew _ (size_alloc h _)) (Nat.le_max_right ..)) hscope
    simp only [Heap.maskOf, maskOver, Option.getD_none, hasAncestor_self, if_true,
      Except.ok.injEq] at hm
    have hpair : (h.alloc (.empty (some scope))).2.addMask ⟨h.size⟩ ⟨h.size⟩ scope = (mask, h') := hm
    rw [hpair] at hbuilt
    exact hbuilt
  | env e =>
    have hframe : (h.copyFrame e (some scope)).2.Layered h.size :=
      hl.alloc hparent fun name v hv x hx => hmade x (mem_handles_of_local? hv hx)
    have hsource : ∀ x ∈ (DataSource.env e).handles, x.index < h.size := hdata
    exact hframe.maskWithPronoun (hnew _ (size_alloc h _)) hscope hsource hm
  | list kind entries =>
    simp only [Heap.maskOf] at hm
    split at hm
    · cases hm
    · have hsource : ∀ x ∈ (DataSource.list kind entries).handles, x.index < h.size := hdata
      have hsize := (growsTo_addData h entries hscope).2
      exact (hl.addData hscope hdata).maskWithPronoun (hnew _ hsize) hscope hsource hm
  | _ => cases hm

end Layered

end Heap

/-! ## States and evaluations -/

/-- A state of that kind, where every live frame has a holder. -/
structure State.Layered (n : Nat) (s : State) : Prop where
  heap : s.heap.Layered n
  settled : s.heap.Settled s.held

namespace State.Layered

variable {n : Nat} {s : State}

theorem nested (hs : s.Layered n) : ({ s with depth := s.depth + 1 } : State).Layered n :=
  ⟨hs.heap, hs.settled⟩

/-- The two edges of a splice lead to a scope that was there before. -/
theorem spliced (hs : s.Layered n) (overscope top : EnvId) {target : EnvId}
    (ht : target.index < n) : (s.spliced overscope top target).Layered n := by
  refine ⟨?_, settled_spliced hs.settled overscope top target⟩
  have hold : ∀ x ∈ (Value.env target).handles, x.index < n := by
    intro x hx
    rw [List.mem_singleton.1 hx]
    exact ht
  unfold State.spliced
  split
  · exact (hs.heap.bind_old overscope .env hold).setParent top ht
  · exact hs.heap.setParent top ht

end State.Layered

theorem invariant_layered (n : Nat) : Invariant (State.Layered n) where
  settled hs := hs.settled
  learns hs hl := by
    refine ⟨?_, hl.settled hs.settled⟩
    rw [hl.heap]
    exact hs.heap

/-- Code that was there before, whatever it evaluates and wherever, asks for no scope but
one that was there before. -/
theorem preserved_layered (n : Nat) :
    Preserved (fun _ => True) (State.Layered n) (fun _ => True) fun e => e.index < n where
  toInvariant := invariant_layered n
  nested hs := hs.nested
  override _ _ _ := trivial
  mask _ := trivial
  scope hs hv := hs.heap.env _ _ hv
  spliced hs _ ht _ := hs.spliced _ _ ht

end Overscope
