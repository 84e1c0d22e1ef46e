-- The scope graph: frames of bindings, each with a link to its parent. A frame
-- that has died leaves an empty place, so that no identity is used twice.
import Overscope.Code.Basic
import Overscope.Table

namespace Overscope

/-- One environment: its own bindings and a link to the enclosing one. -/
@[ext]
structure Frame where
  bindings : Table Name Value
  parent : Option EnvId

/-- All frames made so far, each at the index of its identity. -/
@[ext]
structure Heap where
  frames : Array (Option Frame)

/-- A frame without bindings. -/
def Frame.empty (parent : Option EnvId) : Frame := ⟨.empty, parent⟩

namespace Heap

/-! ## Reading -/

/-- The frame, if it is alive. -/
def frame? (h : Heap) (e : EnvId) : Option Frame := (h.frames[e.index]?).join

def isLive (h : Heap) (e : EnvId) : Bool := (h.frame? e).isSome

/-- The number of frames made so far, dead ones included. -/
def size (h : Heap) : Nat := h.frames.size

def parent? (h : Heap) (e : EnvId) : Option EnvId := (h.frame? e).bind Frame.parent

def bindings (h : Heap) (e : EnvId) : Table Name Value :=
  ((h.frame? e).map Frame.bindings).getD .empty

/-- What the frame itself binds the name to. -/
def local? (h : Heap) (e : EnvId) (name : Name) : Option Value := (h.bindings e).get? name

def hasLocal (h : Heap) (e : EnvId) (name : Name) : Bool := (h.local? e name).isSome

/-- The names bound in the frame, in the order in which they were first seen by
the interner. -/
def names (h : Heap) (e : EnvId) : List Name :=
  (h.bindings e).keys.mergeSort (fun m n => m.index ≤ n.index)

/-! ## Writing -/

/-- Adds a frame. -/
def alloc (h : Heap) (f : Frame) : EnvId × Heap := (⟨h.size⟩, ⟨h.frames.push (some f)⟩)

/-- Changes one frame, if it is alive. -/
def modify (h : Heap) (e : EnvId) (change : Frame → Frame) : Heap :=
  ⟨h.frames.modify e.index (·.map change)⟩

/-- Binds a name in the frame, in place of what it was bound to. -/
def bind (h : Heap) (e : EnvId) (name : Name) (v : Value) : Heap :=
  h.modify e fun f => { f with bindings := f.bindings.insert name v }

def unbind (h : Heap) (e : EnvId) (name : Name) : Heap :=
  h.modify e fun f => { f with bindings := f.bindings.erase name }

/-- Removes every binding of the frame and keeps its parent. -/
def clear (h : Heap) (e : EnvId) : Heap :=
  h.modify e fun f => { f with bindings := .empty }

/-- Writes the parent link, whatever chain comes of it. -/
def setParent (h : Heap) (e : EnvId) (parent : Option EnvId) : Heap :=
  h.modify e fun f => { f with parent }

/-- Puts a binding back to what it was, or to nothing. -/
def restoreBinding (h : Heap) (e : EnvId) (name : Name) (v : Option Value) : Heap :=
  h.modify e fun f => { f with bindings := f.bindings.restore name v }

/-- Copies the bindings of a frame into a new one. -/
def copyFrame (h : Heap) (e : EnvId) (parent : Option EnvId) : EnvId × Heap :=
  h.alloc ⟨h.bindings e, parent⟩

/-! ## One frame after a change -/

theorem frame?_modify (h : Heap) (e f : EnvId) (change : Frame → Frame) :
    (h.modify e change).frame? f = if e = f then (h.frame? f).map change else h.frame? f := by
  obtain ⟨i⟩ := e
  obtain ⟨j⟩ := f
  simp only [frame?, modify, Array.getElem?_modify, EnvId.mk.injEq]
  split
  · rcases h.frames[j]? with _ | _ | _ <;> rfl
  · rfl

theorem frame?_alloc (h : Heap) (f : Frame) (e : EnvId) :
    (h.alloc f).2.frame? e = if e = (h.alloc f).1 then some f else h.frame? e := by
  obtain ⟨i⟩ := e
  simp only [frame?, alloc, size, Array.getElem?_push, EnvId.mk.injEq]
  split <;> rfl

@[simp]
theorem size_modify (h : Heap) (e : EnvId) (change : Frame → Frame) :
    (h.modify e change).size = h.size := by
  simp [size, modify]

@[simp]
theorem isLive_modify (h : Heap) (e f : EnvId) (change : Frame → Frame) :
    (h.modify e change).isLive f = h.isLive f := by
  simp only [isLive, frame?_modify]
  split <;> simp

/-- A change that leaves the frame as it is leaves the scope graph as it is. -/
theorem modify_eq_self {h : Heap} {e : EnvId} {change : Frame → Frame}
    (hc : ∀ f, h.frame? e = some f → change f = f) : h.modify e change = h := by
  ext1
  apply Array.ext_getElem?
  intro i
  simp only [modify, Array.getElem?_modify]
  split
  · next hi =>
    subst hi
    rcases hf : h.frames[e.index]? with _ | _ | f
    · rfl
    · rfl
    · simp [hc f (by simp [frame?, hf])]
  · rfl

theorem modify_modify (h : Heap) (e : EnvId) (first second : Frame → Frame) :
    (h.modify e first).modify e second = h.modify e (second ∘ first) := by
  ext1
  apply Array.ext_getElem?
  intro i
  simp only [modify, Array.getElem?_modify]
  split
  · rcases h.frames[i]? with _ | _ | _ <;> rfl
  · rfl

/-! ## Slots after a change -/

theorem parent?_setParent (h : Heap) (e f : EnvId) (p : Option EnvId) :
    (h.setParent e p).parent? f = if e = f then (if h.isLive f then p else none) else h.parent? f := by
  simp only [parent?, setParent, frame?_modify]
  by_cases hef : e = f
  · rcases Option.eq_none_or_eq_some (h.frame? f) with hf | ⟨_, hf⟩ <;> simp [hef, hf, isLive]
  · simp [hef]

theorem bindings_setParent (h : Heap) (e f : EnvId) (p : Option EnvId) :
    (h.setParent e p).bindings f = h.bindings f := by
  simp only [bindings, setParent, frame?_modify]
  split
  · rcases h.frame? f with _ | _ <;> rfl
  · rfl

theorem local?_setParent (h : Heap) (e f : EnvId) (p : Option EnvId) (name : Name) :
    (h.setParent e p).local? f name = h.local? f name := by
  rw [local?, bindings_setParent, local?]

theorem parent?_bind (h : Heap) (e f : EnvId) (name : Name) (v : Value) :
    (h.bind e name v).parent? f = h.parent? f := by
  simp only [parent?, bind, frame?_modify]
  split
  · rcases h.frame? f with _ | _ <;> rfl
  · rfl

theorem local?_bind (h : Heap) (e f : EnvId) (name n : Name) (v : Value) :
    (h.bind e name v).local? f n =
      if e = f ∧ h.isLive f ∧ name = n then some v else h.local? f n := by
  simp only [local?, bindings, bind, frame?_modify]
  by_cases hef : e = f
  · rcases Option.eq_none_or_eq_some (h.frame? f) with hf | ⟨_, hf⟩
    · simp [hef, hf, isLive]
    · by_cases hn : name = n <;> simp [hef, hf, hn, isLive, Table.get?_insert]
  · simp [hef]

theorem parent?_unbind (h : Heap) (e f : EnvId) (name : Name) :
    (h.unbind e name).parent? f = h.parent? f := by
  simp only [parent?, unbind, frame?_modify]
  split
  · rcases h.frame? f with _ | _ <;> rfl
  · rfl

theorem local?_unbind (h : Heap) (e f : EnvId) (name n : Name) :
    (h.unbind e name).local? f n = if e = f ∧ name = n then none else h.local? f n := by
  simp only [local?, bindings, unbind, frame?_modify]
  by_cases hef : e = f
  · subst hef
    simp only [if_true]
    rcases h.frame? e with _ | fr
    · simp
    · by_cases hn : name = n <;> simp [hn, Table.get?_erase]
  · simp [hef]

theorem parent?_clear (h : Heap) (e f : EnvId) : (h.clear e).parent? f = h.parent? f := by
  simp only [parent?, clear, frame?_modify]
  split
  · rcases h.frame? f with _ | _ <;> rfl
  · rfl

theorem local?_clear (h : Heap) (e f : EnvId) (n : Name) :
    (h.clear e).local? f n = if e = f then none else h.local? f n := by
  simp only [local?, bindings, clear, frame?_modify]
  by_cases hef : e = f
  · subst hef
    simp only [if_true]
    rcases h.frame? e with _ | fr <;> simp
  · simp [hef]

/-- Writing a parent link and putting back the old one is no change at all. -/
theorem setParent_setParent (h : Heap) (e : EnvId) (p : Option EnvId) :
    (h.setParent e p).setParent e (h.parent? e) = h := by
  rw [setParent, setParent, modify_modify]
  apply modify_eq_self
  intro f hf
  simp [parent?, hf]

/-- Binding a name and putting back what it was bound to is no change at all. -/
theorem restoreBinding_bind (h : Heap) (e : EnvId) (name : Name) (v : Value) :
    (h.bind e name v).restoreBinding e name (h.local? e name) = h := by
  rw [restoreBinding, bind, modify_modify]
  apply modify_eq_self
  intro f hf
  simp [local?, bindings, hf, Table.restore_insert]

end Heap

/-! ## The fixed frames -/

/-- The environment of the operators. -/
def EnvId.base : EnvId := ⟨0⟩

/-- The user's outermost environment, inside the one of the operators. -/
def EnvId.global : EnvId := ⟨1⟩

end Overscope
