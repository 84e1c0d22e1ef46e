-- Data masks as they are when they were just built. There are two new frames: one of
-- data, which goes on in the scope, and inside of it the mask itself, with its four
-- names. All frames made before are as they were.
import Overscope.Proofs.Growth

namespace Overscope

/-- What a mask frame binds when it is built. -/
def maskBindings (mask top scope : EnvId) : Table Name Value :=
  (((Table.empty.insert .tilde (.override ⟨mask, top⟩)).insert .maskFlag (.bool true)).insert
    .env (.env scope)).insert .topEnv (.env top)

/-- What the frame of an overscope without data binds when it is built. -/
def quosureMaskBindings (mask scope : EnvId) : Table Name Value :=
  (Table.empty.insert .tilde (.override ⟨mask, mask⟩)).insert .env (.env scope)

/-- A mask frame binds four names. -/
theorem eq_of_maskBindings {mask top scope : EnvId} {name : Name} {v : Value}
    (hv : (maskBindings mask top scope).get? name = some v) :
    name = .topEnv ∧ v = .env top ∨ name = .env ∧ v = .env scope ∨
      name = .maskFlag ∧ v = .bool true ∨ name = .tilde ∧ v = .override ⟨mask, top⟩ := by
  simp only [maskBindings, Table.get?_insert, Table.get?_empty] at hv
  split at hv
  · next hn =>
    cases hv
    exact Or.inl ⟨hn.symm, rfl⟩
  split at hv
  · next hn =>
    cases hv
    exact Or.inr (Or.inl ⟨hn.symm, rfl⟩)
  split at hv
  · next hn =>
    cases hv
    exact Or.inr (Or.inr (Or.inl ⟨hn.symm, rfl⟩))
  split at hv
  · next hn =>
    cases hv
    exact Or.inr (Or.inr (Or.inr ⟨hn.symm, rfl⟩))
  · cases hv

/-- Without data there are two. -/
theorem eq_of_quosureMaskBindings {mask scope : EnvId} {name : Name} {v : Value}
    (hv : (quosureMaskBindings mask scope).get? name = some v) :
    name = .env ∧ v = .env scope ∨ name = .tilde ∧ v = .override ⟨mask, mask⟩ := by
  simp only [quosureMaskBindings, Table.get?_insert, Table.get?_empty] at hv
  split at hv
  · next hn =>
    cases hv
    exact Or.inl ⟨hn.symm, rfl⟩
  split at hv
  · next hn =>
    cases hv
    exact Or.inr ⟨hn.symm, rfl⟩
  · cases hv

/-- Only `~` can be called. -/
theorem eq_tilde_of_maskBindings {mask top scope : EnvId} {name : Name} {v : Value}
    (hv : (maskBindings mask top scope).get? name = some v) (hc : v.isCallable) :
    name = .tilde := by
  rcases eq_of_maskBindings hv with ⟨-, rfl⟩ | ⟨-, rfl⟩ | ⟨-, rfl⟩ | ⟨hn, -⟩
  · cases hc
  · cases hc
  · cases hc
  · exact hn

theorem eq_tilde_of_quosureMaskBindings {mask scope : EnvId} {name : Name} {v : Value}
    (hv : (quosureMaskBindings mask scope).get? name = some v) (hc : v.isCallable) :
    name = .tilde := by
  rcases eq_of_quosureMaskBindings hv with ⟨-, rfl⟩ | ⟨hn, -⟩
  · cases hc
  · exact hn

theorem override_of_maskBindings {mask top scope : EnvId} {name : Name} {o : Override}
    (ho : (maskBindings mask top scope).get? name = some (.override o)) : o = ⟨mask, top⟩ := by
  rcases eq_of_maskBindings ho with ⟨-, hv⟩ | ⟨-, hv⟩ | ⟨-, hv⟩ | ⟨-, hv⟩
  · cases hv
  · cases hv
  · cases hv
  · exact Value.override.inj hv

theorem Table.get?_foldl_insert {κ α : Type} [DecidableEq κ] {ps : List (κ × α)} {t : Table κ α}
    {k : κ} {a : α} (h : (ps.foldl (fun t p => t.insert p.1 p.2) t).get? k = some a) :
    (k, a) ∈ ps ∨ t.get? k = some a := by
  induction ps generalizing t with
  | nil => exact Or.inr h
  | cons p ps ih =>
    rcases ih h with hin | hin
    · exact Or.inl (List.mem_cons_of_mem p hin)
    · rw [Table.get?_insert] at hin
      split at hin
      · next hk =>
        subst hk
        cases hin
        exact Or.inl (List.mem_cons_self ..)
      · exact Or.inr hin

namespace Heap

/-! ## Frames after a change -/

theorem frame?_bind (h : Heap) (e f : EnvId) (name : Name) (v : Value) :
    (h.bind e name v).frame? f =
      if e = f then (h.frame? f).map fun fr => { fr with bindings := fr.bindings.insert name v }
      else h.frame? f :=
  frame?_modify h e f _

theorem frame?_clear (h : Heap) (e f : EnvId) :
    (h.clear e).frame? f =
      if e = f then (h.frame? f).map fun fr => { fr with bindings := .empty } else h.frame? f :=
  frame?_modify h e f _

theorem frame?_eq_none {h : Heap} {e : EnvId} (he : h.size ≤ e.index) : h.frame? e = none := by
  have hnone : h.frames[e.index]? = none := Array.getElem?_eq_none he
  rw [frame?, hnone]
  rfl

/-- Changes of what one frame binds, one after the other. -/
theorem frame?_foldl_modify {ι : Type} (change : Table Name Value → ι → Table Name Value)
    (is : List ι) (h : Heap) (e f : EnvId) :
    (is.foldl (fun h i => h.modify e fun fr => { fr with bindings := change fr.bindings i })
        h).frame? f =
      if e = f then (h.frame? f).map fun fr =>
        { fr with bindings := is.foldl change fr.bindings }
      else h.frame? f := by
  induction is generalizing h with
  | nil =>
    rw [List.foldl_nil]
    split
    · rcases h.frame? f with _ | fr <;> rfl
    · rfl
  | cons i is ih =>
    rw [List.foldl_cons, ih, frame?_modify]
    by_cases hef : e = f
    · rcases h.frame? f with _ | fr <;> simp [hef]
    · simp [hef]

theorem frame?_foldl_bind (ps : List (Name × Value)) (h : Heap) (e f : EnvId) :
    (ps.foldl (fun h p => h.bind e p.1 p.2) h).frame? f =
      if e = f then (h.frame? f).map fun fr =>
        { fr with bindings := ps.foldl (fun t p => t.insert p.1 p.2) fr.bindings }
      else h.frame? f := by
  simp only [bind]
  rw [frame?_foldl_modify fun t (p : Name × Value) => t.insert p.1 p.2]

theorem frame?_foldl_unbind (names : List Name) (h : Heap) (e f : EnvId) :
    (names.foldl (·.unbind e ·) h).frame? f =
      if e = f then (h.frame? f).map fun fr =>
        { fr with bindings := names.foldl Table.erase fr.bindings }
      else h.frame? f := by
  simp only [unbind]
  rw [frame?_foldl_modify Table.erase]

/-- The new frame of the variables of a list. -/
theorem frame?_addData (h : Heap) (entries : Entries) (parent e : EnvId) :
    (h.addData entries parent).2.frame? e =
      if e = ⟨h.size⟩ then
        some ⟨entries.named.foldl (fun t p => t.insert p.1 p.2) .empty, some parent⟩
      else h.frame? e := by
  have hnew : (h.alloc (.empty (some parent))).1 = ⟨h.size⟩ := rfl
  have hfold := frame?_foldl_bind entries.named (h.alloc (.empty (some parent))).2 ⟨h.size⟩ e
  rw [frame?_alloc, hnew] at hfold
  refine Eq.trans hfold ?_
  by_cases he : e = ⟨h.size⟩
  · rw [if_pos he.symm, if_pos he, if_pos he]
    rfl
  · rw [if_neg (Ne.symm he), if_neg he, if_neg he]

/-- The new frame of a mask. -/
theorem frame?_addMask (h : Heap) (bottom top scope e : EnvId) :
    (h.addMask bottom top scope).2.frame? e =
      if e = ⟨h.size⟩ then some ⟨maskBindings ⟨h.size⟩ top scope, some bottom⟩ else h.frame? e := by
  simp only [addMask, frame?_bind, frame?_alloc]
  by_cases he : e = ⟨h.size⟩
  · subst he
    simp [alloc, maskBindings, Frame.empty]
  · simp [alloc, he, Ne.symm he]

/-- The new frame of an overscope without data. -/
theorem frame?_addQuosureMask (h : Heap) (scope e : EnvId) :
    (h.addQuosureMask scope).2.frame? e =
      if e = ⟨h.size⟩ then some ⟨quosureMaskBindings ⟨h.size⟩ scope, some scope⟩
      else h.frame? e := by
  simp only [addQuosureMask, frame?_bind, frame?_alloc]
  by_cases he : e = ⟨h.size⟩
  · subst he
    simp [alloc, quosureMaskBindings, Frame.empty]
  · simp [alloc, he, Ne.symm he]

theorem frame?_addQuosureMask_of_old (h : Heap) (scope e : EnvId) (he : e.index < h.size) :
    (h.addQuosureMask scope).2.frame? e = h.frame? e := by
  rw [frame?_addQuosureMask, if_neg]
  rintro rfl
  exact Nat.lt_irrefl _ he

theorem link_addQuosureMask (h : Heap) (scope : EnvId) :
    (h.addQuosureMask scope).2.Link ⟨h.size⟩ scope := by
  rw [Link, parent?, frame?_addQuosureMask, if_pos rfl]
  rfl

theorem local?_addQuosureMask_self (h : Heap) (scope : EnvId) (name : Name) :
    (h.addQuosureMask scope).2.local? ⟨h.size⟩ name =
      (quosureMaskBindings ⟨h.size⟩ scope).get? name := by
  rw [local?, bindings, frame?_addQuosureMask, if_pos rfl]
  rfl

/-- What a new overscope without data binds. -/
theorem local?_addQuosureMask {h : Heap} {scope e : EnvId} (he : h.size ≤ e.index) {name : Name}
    {v : Value} (hv : (h.addQuosureMask scope).2.local? e name = some v) :
    name = .env ∧ v = .env scope ∨ name = .tilde ∧ v = .override ⟨⟨h.size⟩, ⟨h.size⟩⟩ := by
  rw [local?, bindings, frame?_addQuosureMask] at hv
  split at hv
  · exact eq_of_quosureMaskBindings hv
  · rw [frame?_eq_none he] at hv
    cases hv

/-! ## Fresh masks -/

/-- What data binds a name to, as a variable. -/
def DataBinds (h : Heap) (data : Value) (name : Name) (v : Value) : Prop :=
  match data with
  | .env e => h.local? e name = some v
  | .list _ entries => (name, v) ∈ entries.named
  | _ => False

/-- The frame of data that a new mask is built over. -/
def newBottom (h : Heap) : EnvId := ⟨h.size⟩

/-- A mask for data that is built over a new frame. -/
def newMask (h : Heap) : EnvId := ⟨h.size + 1⟩

theorem size_le_newBottom (h : Heap) : h.size ≤ h.newBottom.index := Nat.le_refl _

theorem size_le_newMask (h : Heap) : h.size ≤ h.newMask.index := Nat.le_succ _

theorem newMask_ne_newBottom (h : Heap) : h.newMask ≠ h.newBottom := by
  rw [newMask, newBottom, ne_eq, EnvId.mk.injEq]
  omega

/-- With two more frames than `h` there is no other new one. -/
theorem eq_newBottom_or_newMask {h h' : Heap} (hsize : h'.size = h.size + 2) {e : EnvId}
    (he : h.size ≤ e.index) (hl : h'.isLive e) : e = h.newBottom ∨ e = h.newMask := by
  have hlt := index_lt_size hl
  rw [hsize] at hlt
  obtain ⟨i⟩ := e
  simp only [newBottom, newMask, EnvId.mk.injEq] at *
  omega

/-- `h'` is `h` with a new mask for the data, which goes on in `scope`. -/
structure FreshMask (h : Heap) (data : Value) (scope : EnvId) (h' : Heap) : Prop where
  size : h'.size = h.size + 2
  old : ∀ e, e.index < h.size → h'.frame? e = h.frame? e
  bottom : ∃ vars, h'.frame? h.newBottom = some ⟨vars, some scope⟩ ∧
    ∀ name v, vars.get? name = some v →
      (name = .data ∧ ∃ source absence, v = .pronoun source absence) ∨ h.DataBinds data name v
  mask : h'.frame? h.newMask = some ⟨maskBindings h.newMask h.newBottom scope, some h.newBottom⟩

namespace FreshMask

variable {h h' : Heap} {data : Value} {scope : EnvId}

theorem local?_mask (hf : h.FreshMask data scope h') (name : Name) :
    h'.local? h.newMask name = (maskBindings h.newMask h.newBottom scope).get? name := by
  rw [local?, bindings, hf.mask]
  rfl

theorem link_mask (hf : h.FreshMask data scope h') : h'.Link h.newMask h.newBottom := by
  rw [Link, parent?, hf.mask]
  rfl

theorem link_bottom (hf : h.FreshMask data scope h') : h'.Link h.newBottom scope := by
  obtain ⟨vars, hbottom, -⟩ := hf.bottom
  rw [Link, parent?, hbottom]
  rfl

/-- Over a list or an environment the frame of data binds the pronoun, and what the data binds. -/
theorem binds_bottom (hf : h.FreshMask data scope h') {name : Name} {v : Value}
    (hv : h'.local? h.newBottom name = some v) :
    (name = .data ∧ ∃ source absence, v = .pronoun source absence) ∨ h.DataBinds data name v := by
  obtain ⟨vars, hbottom, hvars⟩ := hf.bottom
  rw [local?, bindings, hbottom] at hv
  exact hvars name v hv

end FreshMask

/-- A mask that is built over the one new frame. -/
theorem freshMask_addMask {h h₁ : Heap} {data : Value} {scope : EnvId} {vars : Table Name Value}
    (hsize : h₁.size = h.size + 1) (hold : ∀ e, e.index < h.size → h₁.frame? e = h.frame? e)
    (hbottom : h₁.frame? h.newBottom = some ⟨vars, some scope⟩)
    (hdata : ∀ name v, vars.get? name = some v →
      (name = .data ∧ ∃ source absence, v = .pronoun source absence) ∨ h.DataBinds data name v) :
    (h₁.addMask h.newBottom h.newBottom scope).1 = h.newMask ∧
      h.FreshMask data scope (h₁.addMask h.newBottom h.newBottom scope).2 := by
  have hmask : (⟨h₁.size⟩ : EnvId) = h.newMask := by rw [hsize, newMask]
  refine ⟨hmask, ?_, ?_, ⟨vars, ?_, hdata⟩, ?_⟩
  · simp only [addMask, bind, size_modify, size_alloc, hsize]
  · intro e he
    rw [frame?_addMask, if_neg, hold e he]
    rintro rfl
    simp only at he
    omega
  · rw [frame?_addMask, if_neg, hbottom]
    rw [hmask, newMask, newBottom, EnvId.mk.injEq]
    omega
  · rw [frame?_addMask, if_pos hmask.symm, hmask]

theorem maskOver_some {h : Heap} {bottom top : EnvId} (ha : h.hasAncestor bottom top)
    (scope : EnvId) :
    h.maskOver (some bottom) (some top) scope = .ok (h.addMask bottom top scope) := by
  simp only [maskOver, Option.getD_some, ha, if_true]

theorem maskOver_self (h : Heap) (bottom scope : EnvId) :
    h.maskOver (some bottom) (some bottom) scope = .ok (h.addMask bottom bottom scope) :=
  maskOver_some (h.hasAncestor_self bottom) scope

/-- With the pronoun the frame of data binds one name more. -/
theorem freshMask_maskWithPronoun {h h₁ h' : Heap} {data : Value} {scope mask : EnvId}
    {vars : Table Name Value} {source : DataSource} {absence : String}
    (hsize : h₁.size = h.size + 1) (hold : ∀ e, e.index < h.size → h₁.frame? e = h.frame? e)
    (hbottom : h₁.frame? h.newBottom = some ⟨vars, some scope⟩)
    (hdata : ∀ name v, vars.get? name = some v → h.DataBinds data name v)
    (hm : h₁.maskWithPronoun h.newBottom source absence scope = .ok (mask, h')) :
    mask = h.newMask ∧ h.FreshMask data scope h' := by
  rw [maskWithPronoun, maskOver_self] at hm
  have hsize' : (h₁.bind h.newBottom .data (.pronoun source absence)).size = h.size + 1 := by
    rw [bind, size_modify, hsize]
  have hold' : ∀ e, e.index < h.size →
      (h₁.bind h.newBottom .data (.pronoun source absence)).frame? e = h.frame? e := by
    intro e he
    rw [frame?_bind, if_neg, hold e he]
    rintro rfl
    simp only [newBottom] at he
    omega
  have hbottom' : (h₁.bind h.newBottom .data (.pronoun source absence)).frame? h.newBottom =
      some ⟨vars.insert .data (.pronoun source absence), some scope⟩ := by
    rw [frame?_bind, if_pos rfl, hbottom]
    rfl
  have hdata' : ∀ name v, (vars.insert .data (.pronoun source absence)).get? name = some v →
      (name = .data ∧ ∃ source absence, v = .pronoun source absence) ∨ h.DataBinds data name v := by
    intro name v hv
    rw [Table.get?_insert] at hv
    split at hv
    · next hn =>
      cases hv
      exact Or.inl ⟨hn.symm, source, absence, rfl⟩
    · exact Or.inr (hdata name v hv)
  have hbuilt := freshMask_addMask hsize' hold' hbottom' hdata'
  rw [Except.ok.inj hm] at hbuilt
  exact hbuilt

/-- Data is refused for what it is, never for the scope graph. -/
theorem maskOf_eq_error {h : Heap} {data : Value} {scope : EnvId} {err : EvalError}
    (he : h.maskOf data scope = .error err) : ∃ defect, err = .invalidDataMask defect := by
  cases data with
  | null =>
    simp only [maskOf, maskOver, Option.getD_none, hasAncestor_self, if_true] at he
    cases he
  | env e =>
    simp only [maskOf, maskWithPronoun, maskOver_self] at he
    cases he
  | list kind entries =>
    simp only [maskOf, maskWithPronoun, maskOver_self] at he
    split at he
    · next defect _ =>
      cases he
      exact ⟨defect, rfl⟩
    · cases he
  | _ =>
    cases he
    exact ⟨_, rfl⟩

/-- The mask of any data that is accepted. -/
theorem freshMask_maskOf {h h' : Heap} {data : Value} {scope mask : EnvId}
    (hm : h.maskOf data scope = .ok (mask, h')) : mask = h.newMask ∧ h.FreshMask data scope h' := by
  have hold : ∀ (f : Frame) e, e.index < h.size → (h.alloc f).2.frame? e = h.frame? e := by
    intro f e he
    rw [frame?_alloc, if_neg]
    rintro rfl
    exact Nat.lt_irrefl _ he
  cases data with
  | null =>
    have hnone : ∀ name v, (Frame.empty (some scope)).bindings.get? name = some v →
        (name = .data ∧ ∃ source absence, v = .pronoun source absence) ∨
          h.DataBinds .null name v := fun name v hv => by cases hv
    have hbuilt := freshMask_addMask (size_alloc h _) (hold (.empty (some scope)))
      (frame?_alloc_self h _) hnone
    simp only [maskOf, maskOver, Option.getD_none, hasAncestor_self, if_true, Except.ok.injEq] at hm
    have hpair : (h.alloc (.empty (some scope))).2.addMask h.newBottom h.newBottom scope =
        (mask, h') := hm
    rw [hpair] at hbuilt
    exact hbuilt
  | env e =>
    exact freshMask_maskWithPronoun (size_alloc h _) (hold ⟨h.bindings e, some scope⟩)
      (frame?_alloc_self h _) (fun name v hv => hv) hm
  | list kind entries =>
    simp only [maskOf] at hm
    split at hm
    · cases hm
    · have hsame := sameLinks_addData h entries scope
      have hbottom := (frame?_addData h entries scope h.newBottom).trans (if_pos rfl)
      refine freshMask_maskWithPronoun (hsame.size.trans (size_alloc h _)) (fun e he => ?_)
        hbottom (fun name v hv => ?_) hm
      · rw [frame?_addData, if_neg]
        rintro rfl
        exact Nat.lt_irrefl _ he
      · exact (Table.get?_foldl_insert hv).resolve_right (by simp)
  | _ => cases hm

end Heap

end Overscope
