-- Which frames are alive, and who holds them. A change of one slot leaves every
-- live frame with a holder if what the slot held is held on, and a sweep always
-- ends with a holder for every frame that is left.
import Mathlib.Data.List.Nodup
import Mathlib.Data.List.Range
import Overscope.Scope.Guard
import Overscope.Scope.Liveness

namespace Overscope

/-! ## The values of a table after an insertion -/

theorem mem_putPair_of_mem {κ α : Type} [DecidableEq κ] {k : κ} {a : α} {ps : List (κ × α)}
    {p : κ × α} (hp : p ∈ ps) : p ∈ putPair k a ps ∨ ps.lookup k = some p.2 := by
  induction ps with
  | nil => simp at hp
  | cons q qs ih =>
    obtain ⟨j, b⟩ := q
    unfold putPair
    by_cases hj : j = k
    · subst hj
      rcases List.mem_cons.1 hp with rfl | hp
      · right; simp
      · left; simp [hp]
    · have hk : (k == j) = false := by simpa using Ne.symm hj
      rw [List.lookup_cons, hk]
      simp only [hj, if_false, List.mem_cons]
      rcases List.mem_cons.1 hp with rfl | hp
      · exact Or.inl (Or.inl rfl)
      · rcases ih hp with h | h
        · exact Or.inl (Or.inr h)
        · exact Or.inr h

/-- An insertion loses no value but the one that it replaces. -/
theorem Table.mem_values_insert {κ α : Type} [DecidableEq κ] {t : Table κ α} {k : κ} {a v : α}
    (hv : v ∈ t.values) : v ∈ (t.insert k a).values ∨ t.get? k = some v := by
  obtain ⟨p, hp, rfl⟩ := List.mem_map.1 hv
  rcases mem_putPair_of_mem hp with h | h
  · exact Or.inl (List.mem_map.2 ⟨p, h, rfl⟩)
  · exact Or.inr h

/-- What a table has under a key is one of its values. -/
theorem Table.mem_values_of_get? {κ α : Type} [DecidableEq κ] {t : Table κ α} {k : κ} {a : α}
    (h : t.get? k = some a) : a ∈ t.values := by
  obtain ⟨before, after, hsplit, -⟩ := List.lookup_eq_some_iff.1 h
  rw [values, hsplit, List.map_append, List.map_cons]
  exact List.mem_append_right _ (List.mem_cons_self ..)

namespace Heap

/-! ## Live frames -/

/-- The frames that are alive, oldest first. -/
def liveFrames (h : Heap) : List EnvId := ((List.range h.size).map EnvId.mk).filter h.isLive

theorem mem_liveFrames {h : Heap} {e : EnvId} : e ∈ h.liveFrames ↔ h.isLive e := by
  simp only [liveFrames, List.mem_filter, List.mem_map, List.mem_range]
  constructor
  · exact fun he => he.2
  · exact fun he => ⟨⟨e.index, index_lt_size he, rfl⟩, he⟩

theorem length_liveFrames_le (h : Heap) : h.liveFrames.length ≤ h.size := by
  have := List.length_filter_le h.isLive ((List.range h.size).map EnvId.mk)
  simpa [liveFrames] using this

/-- No frame is alive beyond those that were made. -/
theorem filter_isLive_range {h : Heap} {n : Nat} (hn : h.size ≤ n) :
    ((List.range n).map EnvId.mk).filter h.isLive = h.liveFrames := by
  obtain ⟨k, rfl⟩ := Nat.exists_eq_add_of_le hn
  rw [List.range_add, List.map_append, List.filter_append, liveFrames]
  have hnone : ((List.map (h.size + ·) (List.range k)).map EnvId.mk).filter h.isLive = [] := by
    rw [List.filter_eq_nil_iff]
    intro e he hl
    simp only [List.map_map, List.mem_map, List.mem_range, Function.comp_apply] at he
    obtain ⟨i, _, rfl⟩ := he
    have hlt := index_lt_size hl
    simp only at hlt
    omega
  rw [hnone, List.append_nil]

/-- The live frames depend on nothing but which frames are alive, not on how many
have died. -/
theorem liveFrames_congr {h h' : Heap} (hl : ∀ e, h.isLive e = h'.isLive e) :
    h.liveFrames = h'.liveFrames := by
  rw [← filter_isLive_range (Nat.le_max_left h.size h'.size),
    ← filter_isLive_range (Nat.le_max_right h.size h'.size), funext hl]

theorem parent?_congr {h t : Heap} {e : EnvId} (hf : t.frame? e = h.frame? e) :
    t.parent? e = h.parent? e := by
  rw [parent?, hf, parent?]

theorem bindings_congr {h t : Heap} {e : EnvId} (hf : t.frame? e = h.frame? e) :
    t.bindings e = h.bindings e := by
  rw [bindings, hf, bindings]

theorem local?_congr {h t : Heap} {e : EnvId} (hf : t.frame? e = h.frame? e) (name : Name) :
    t.local? e name = h.local? e name := by
  rw [local?, bindings_congr hf, local?]

theorem isLive_of_parent? {h : Heap} {e p : EnvId} (hp : h.parent? e = some p) : h.isLive e := by
  unfold parent? at hp
  rcases hf : h.frame? e with _ | f
  · simp [hf] at hp
  · simp [isLive, hf]

theorem isLive_of_hasLocal {h : Heap} {e : EnvId} {name : Name} (hn : h.hasLocal e name) :
    h.isLive e := by
  rcases hf : h.frame? e with _ | f
  · simp [hasLocal, local?, bindings, hf] at hn
  · simp [isLive, hf]

theorem isLive_of_local? {h : Heap} {e : EnvId} {name : Name} {v : Value}
    (hv : h.local? e name = some v) : h.isLive e :=
  isLive_of_hasLocal (Option.isSome_iff_exists.2 ⟨v, hv⟩)

theorem parent?_of_not_isLive {h : Heap} {e : EnvId} (hl : ¬ h.isLive e) : h.parent? e = none := by
  rcases hp : h.parent? e with _ | p
  · rfl
  · exact absurd (isLive_of_parent? hp) hl

theorem local?_of_not_isLive {h : Heap} {e : EnvId} (hl : ¬ h.isLive e) (name : Name) :
    h.local? e name = none := by
  rcases hn : h.local? e name with _ | v
  · rfl
  · exact absurd (isLive_of_local? hn) hl

/-- What is bound at all is bound in one of the frames made, under one of its names. -/
theorem forall_local?_iff {h : Heap} {P : EnvId → Name → Value → Prop} :
    (∀ e name v, h.local? e name = some v → P e name v) ↔
      ∀ i < h.size, ∀ name ∈ (h.bindings ⟨i⟩).keys, ∀ v ∈ h.local? ⟨i⟩ name, P ⟨i⟩ name v := by
  constructor
  · intro hP i _ name _ v hv
    exact hP ⟨i⟩ name v hv
  · intro hP e name v hv
    have hlocal : h.hasLocal e name := Option.isSome_iff_exists.2 ⟨v, hv⟩
    have he := index_lt_size (isLive_of_hasLocal hlocal)
    exact hP e.index he name (Table.mem_keys_iff.2 hlocal) v hv

/-! ## Holders -/

instance (h : Heap) (held : List EnvId) : Decidable (h.Settled held) :=
  inferInstanceAs (Decidable (h.unheld held = []))

theorem mem_handles_iff {h : Heap} {x : EnvId} :
    x ∈ h.handles ↔ ∃ e f, h.frame? e = some f ∧ x ∈ f.handles := by
  simp only [handles, List.mem_flatMap]
  constructor
  · rintro ⟨_ | f, hf, hx⟩
    · simp at hx
    · obtain ⟨i, hi⟩ := List.mem_iff_getElem?.1 hf
      refine ⟨⟨i⟩, f, ?_, by simpa using hx⟩
      simpa [frame?, Option.join_eq_some_iff] using hi
  · rintro ⟨e, f, hf, hx⟩
    have hi : h.frames[e.index]? = some (some f) := by
      simpa [frame?, Option.join_eq_some_iff] using hf
    exact ⟨some f, List.mem_iff_getElem?.2 ⟨e.index, by simpa using hi⟩, by simpa using hx⟩

/-- A frame holds what it binds a name to. -/
theorem exists_frame?_of_local? {h : Heap} {e x : EnvId} {name : Name} {v : Value}
    (hv : h.local? e name = some v) (hx : x ∈ v.handles) :
    ∃ f, h.frame? e = some f ∧ x ∈ f.handles := by
  rcases hf : h.frame? e with _ | f
  · rw [local?, bindings, hf] at hv
    cases hv
  · rw [local?, bindings, hf] at hv
    refine ⟨f, rfl, List.mem_append_right _ ?_⟩
    exact List.mem_flatMap.2 ⟨v, Table.mem_values_of_get? hv, hx⟩

theorem mem_handles_of_local? {h : Heap} {e x : EnvId} {name : Name} {v : Value}
    (hv : h.local? e name = some v) (hx : x ∈ v.handles) : x ∈ h.handles :=
  mem_handles_iff.2 ⟨e, exists_frame?_of_local? hv hx⟩

/-- With further frames that are all alive there are so many live frames more. -/
theorem length_liveFrames_of_new {h h' : Heap} {k : Nat} (hsize : h'.size = h.size + k)
    (hold : ∀ e, e.index < h.size → h'.isLive e = h.isLive e)
    (hnew : ∀ i < k, h'.isLive ⟨h.size + i⟩) :
    h'.liveFrames.length = h.liveFrames.length + k := by
  rw [liveFrames, hsize, List.range_add, List.map_append, List.filter_append, List.length_append]
  congr 1
  · congr 1
    apply List.filter_congr
    intro e he
    obtain ⟨i, hi, rfl⟩ := List.mem_map.1 he
    exact hold ⟨i⟩ (List.mem_range.1 hi)
  · rw [List.filter_eq_self.2]
    · simp
    · intro e he
      simp only [List.map_map, List.mem_map, List.mem_range, Function.comp_apply] at he
      obtain ⟨i, hi, rfl⟩ := he
      exact hnew i hi

theorem settled_of_subset {h : Heap} {held held' : List EnvId} (hs : h.Settled held)
    (hsub : held ⊆ held') : h.Settled held' := by
  rw [settled_iff] at hs ⊢
  intro e he
  exact (hs e he).imp_right fun hin => hsub hin

/-- A change of one frame leaves every live frame with a holder, if what the frame
holds no longer is held from outside. -/
theorem settled_modify {h : Heap} {e : EnvId} {change : Frame → Frame} {held held' : List EnvId}
    (hs : h.Settled held) (hsub : ∀ x ∈ held, x ∈ held')
    (hkeep : ∀ f, h.frame? e = some f → ∀ x ∈ f.handles, x ∈ (change f).handles ∨ x ∈ held') :
    (h.modify e change).Settled held' := by
  rw [settled_iff] at hs ⊢
  intro x hx
  rw [isLive_modify] at hx
  rcases hs x hx with hin | hin
  · obtain ⟨g, f, hf, hxf⟩ := mem_handles_iff.1 hin
    by_cases heg : e = g
    · subst heg
      rcases hkeep f hf x hxf with hk | hk
      · exact Or.inl (mem_handles_iff.2 ⟨e, change f, by simp [frame?_modify, hf], hk⟩)
      · exact Or.inr hk
    · exact Or.inl (mem_handles_iff.2 ⟨g, f, by simp [frame?_modify, heg, hf], hxf⟩)
  · exact Or.inr (hsub x hin)

/-- A new parent link leaves every live frame with a holder, if the old parent is held. -/
theorem settled_setParent_of_held {h : Heap} {held held' : List EnvId} (hs : h.Settled held)
    (hsub : ∀ x ∈ held, x ∈ held') {e : EnvId} (hold : ∀ x ∈ h.parent? e, x ∈ held')
    (p : Option EnvId) : (h.setParent e p).Settled held' := by
  refine settled_modify hs hsub fun f hf x hx => ?_
  rcases List.mem_append.1 hx with hx | hx
  · right
    apply hold
    rw [parent?, hf]
    exact Option.mem_toList.1 hx
  · exact Or.inl (List.mem_append_right _ hx)

/-- A new binding leaves every live frame with a holder, if all that the old one held is
held. -/
theorem settled_bind_of_held {h : Heap} {held held' : List EnvId} (hs : h.Settled held)
    (hsub : ∀ x ∈ held, x ∈ held') {e : EnvId} {name : Name}
    (hold : ∀ w ∈ h.local? e name, ∀ x ∈ w.handles, x ∈ held') (v : Value) :
    (h.bind e name v).Settled held' := by
  refine settled_modify hs hsub fun f hf x hx => ?_
  rcases List.mem_append.1 hx with hx | hx
  · exact Or.inl (List.mem_append_left _ hx)
  · obtain ⟨w, hw, hxw⟩ := List.mem_flatMap.1 hx
    rcases Table.mem_values_insert hw with hin | hout
    · exact Or.inl (List.mem_append_right _ (List.mem_flatMap.2 ⟨w, hin, hxw⟩))
    · right
      have hl : h.local? e name = some w := by simpa [local?, bindings, hf] using hout
      exact hold w hl x hxw

/-- Under the guard of a swapped parent link every live frame has a holder. -/
theorem settled_setParent {h : Heap} {held : List EnvId} (hs : h.Settled held) (e : EnvId)
    (p : Option EnvId) :
    (h.setParent e p).Settled (joinHandles (Guard.parent e (h.parent? e)).handles held) := by
  refine settled_setParent_of_held hs (fun x hx => mem_joinHandles.2 (Or.inr hx)) (fun x hx => ?_) p
  rw [mem_joinHandles, Guard.handles]
  exact Or.inl (List.mem_cons_of_mem e (Option.mem_toList.2 hx))

/-- Under the guard of a swapped binding every live frame has a holder. -/
theorem settled_bind {h : Heap} {held : List EnvId} (hs : h.Settled held) (e : EnvId)
    (name : Name) (v : Value) :
    (h.bind e name v).Settled
      (joinHandles (Guard.binding e name (h.local? e name)).handles held) := by
  refine settled_bind_of_held hs (fun x hx => mem_joinHandles.2 (Or.inr hx)) (fun w hw x hx => ?_) v
  rw [mem_joinHandles, Guard.handles, Option.mem_def.1 hw]
  exact Or.inl (List.mem_cons_of_mem e hx)

/-! ## Sweeping -/

theorem frame?_kill (h : Heap) (d e : EnvId) :
    (h.kill d).frame? e = if e = d then none else h.frame? e := by
  obtain ⟨i⟩ := e
  obtain ⟨j⟩ := d
  simp only [frame?, kill, Array.getElem?_setIfInBounds, EnvId.mk.injEq]
  by_cases hij : i = j
  · subst hij
    by_cases hi : i < h.frames.size <;> simp [hi]
  · simp [hij, Ne.symm hij]

@[simp]
theorem size_kill (h : Heap) (d : EnvId) : (h.kill d).size = h.size := by
  simp [size, kill]

theorem frame?_foldl_kill (dead : List EnvId) (h : Heap) (e : EnvId) :
    (dead.foldl kill h).frame? e = if e ∈ dead then none else h.frame? e := by
  induction dead generalizing h with
  | nil => simp
  | cons d dead ih =>
    rw [List.foldl_cons, ih, frame?_kill]
    by_cases hed : e = d <;> simp [hed]

theorem size_foldl_kill (dead : List EnvId) (h : Heap) : (dead.foldl kill h).size = h.size := by
  induction dead generalizing h with
  | nil => rfl
  | cons d dead ih => rw [List.foldl_cons, ih, size_kill]

theorem sweepUpTo_induction {P : Heap → Prop} {held : List EnvId}
    (hround : ∀ h : Heap, P h → P ((h.unheld held).foldl kill h)) (n : Nat) {h : Heap} (hp : P h) :
    P (sweepUpTo held n h) := by
  induction n generalizing h with
  | zero => exact hp
  | succ n ih =>
    unfold sweepUpTo
    split
    · exact hp
    · exact ih (hround h hp)

/-- A sweep leaves a frame as it is, or dead. -/
theorem frame?_sweep (h : Heap) (held : List EnvId) (e : EnvId) :
    (h.sweep held).frame? e = h.frame? e ∨ (h.sweep held).frame? e = none := by
  refine sweepUpTo_induction (P := fun h' => h'.frame? e = h.frame? e ∨ h'.frame? e = none) ?_ _ ?_
  · intro h' hp
    rw [frame?_foldl_kill]
    split
    · exact Or.inr rfl
    · exact hp
  · exact Or.inl rfl

/-- A frame that lives on is left as it is. -/
theorem frame?_sweep_of_isLive {h : Heap} {held : List EnvId} {e : EnvId}
    (hl : (h.sweep held).isLive e) : (h.sweep held).frame? e = h.frame? e := by
  rcases frame?_sweep h held e with heq | heq
  · exact heq
  · rw [isLive, heq] at hl
    cases hl

theorem frame?_of_sweep {h : Heap} {held : List EnvId} {e : EnvId} {f : Frame}
    (hf : (h.sweep held).frame? e = some f) : h.frame? e = some f := by
  have hl : (h.sweep held).isLive e := by
    rw [isLive, hf]
    rfl
  rw [← frame?_sweep_of_isLive hl, hf]

/-- A sweep brings nothing back to life. -/
theorem isLive_of_sweep {h : Heap} {held : List EnvId} {e : EnvId} (hl : (h.sweep held).isLive e) :
    h.isLive e := by
  rw [isLive, ← frame?_sweep_of_isLive hl]
  exact hl

/-- What is bound after a sweep was bound before. -/
theorem local?_of_sweep {h : Heap} {held : List EnvId} {e : EnvId} {name : Name} {v : Value}
    (hv : (h.sweep held).local? e name = some v) : h.local? e name = some v := by
  have hl : (h.sweep held).isLive e := isLive_of_local? hv
  rw [local?, bindings, frame?_sweep_of_isLive hl] at hv
  exact hv

/-- A sweep spares what is held from outside. -/
theorem isLive_sweep_of_mem {h : Heap} {held : List EnvId} {e : EnvId} (he : e ∈ held)
    (hl : h.isLive e) : (h.sweep held).isLive e := by
  refine sweepUpTo_induction (P := fun h' => h'.isLive e) ?_ _ hl
  intro h' hl'
  have hspared : e ∉ h'.unheld held := fun hin => (mem_unheld_iff.1 hin).2.2 he
  rw [isLive, frame?_foldl_kill, if_neg hspared]
  exact hl'

theorem size_sweep (h : Heap) (held : List EnvId) : (h.sweep held).size = h.size := by
  apply sweepUpTo_induction (P := fun h' => h'.size = h.size)
  · intro h' hp
    rw [size_foldl_kill, hp]
  · rfl

/-- A round that finds a frame without a holder ends a life. -/
theorem length_liveFrames_foldl_kill_lt {h : Heap} {held : List EnvId}
    (hne : h.unheld held ≠ []) :
    ((h.unheld held).foldl kill h).liveFrames.length < h.liveFrames.length := by
  obtain ⟨d, hmem⟩ := List.exists_mem_of_ne_nil _ hne
  have hlive : h.isLive d := (mem_unheld_iff.1 hmem).1
  generalize h.unheld held = dead at hmem
  have heq : (dead.foldl kill h).liveFrames = h.liveFrames.filter (fun e => !decide (e ∈ dead)) := by
    rw [liveFrames, liveFrames, List.filter_filter, size_foldl_kill]
    apply List.filter_congr
    intro e _
    simp only [isLive, frame?_foldl_kill]
    by_cases he : e ∈ dead <;> simp [he]
  rw [heq, List.length_filter_lt_length_iff_exists]
  exact ⟨d, mem_liveFrames.2 hlive, by simpa using hmem⟩

theorem settled_sweepUpTo {held : List EnvId} (n : Nat) {h : Heap}
    (hn : h.liveFrames.length ≤ n) : (sweepUpTo held n h).Settled held := by
  induction n generalizing h with
  | zero =>
    have hnil : h.liveFrames = [] := List.length_eq_zero_iff.1 (Nat.le_zero.1 hn)
    rw [sweepUpTo, settled_iff]
    intro e he
    rw [← mem_liveFrames, hnil] at he
    simp at he
  | succ n ih =>
    unfold sweepUpTo
    split
    · next hd => exact hd
    · next hne =>
      apply ih
      have := length_liveFrames_foldl_kill_lt hne
      omega

/-- After a sweep every live frame has a holder. -/
theorem settled_sweep (h : Heap) (held : List EnvId) : (h.sweep held).Settled held :=
  settled_sweepUpTo h.size (length_liveFrames_le h)

end Heap

end Overscope
