-- The interner: a text gets a name the first time it is seen and keeps it. The
-- table from texts to names and the row of texts are two views of one bijection.
import Overscope.Name
import Overscope.Primitive
import Overscope.Table

namespace Overscope

/-- The name of an operator's symbol, which every interner issues at the start. -/
def Primitive.name : Primitive → Name
  | .tilde => .tilde
  | .quote => ⟨2⟩
  | .arithmetic .add => ⟨3⟩
  | .arithmetic .sub => ⟨4⟩
  | .arithmetic .mul => ⟨5⟩
  | .arithmetic .div => ⟨6⟩
  | .member => ⟨7⟩

/-- The texts seen so far, in order, and the name of each. -/
structure Interner where
  names : Table String Name
  texts : Array String

/-- Why a text gets no name. -/
inductive InternError where
  /-- Every name is issued, `count` of them. -/
  | overflow (count : Nat)
deriving DecidableEq, Repr

def InternError.message : InternError → String
  | .overflow count =>
    "interner exceeded capacity: " ++ toString count ++ " strings, max is 4294967295"

namespace Interner

/-- An interner that has seen nothing. -/
def blank : Interner := ⟨.empty, #[]⟩

/-- The name of a text: the old one, or the next free index. -/
def intern (i : Interner) (text : String) : Name × Interner :=
  match i.names.get? text with
  | some n => (n, i)
  | none => (⟨i.texts.size⟩, ⟨i.names.insert text ⟨i.texts.size⟩, i.texts.push text⟩)

/-- How many names there are: the index of a name has 32 bits. -/
def capacity : Nat := 4294967296

/-- Looks a text up and, if it is not there, adds it as long as there is a name left. No
one else reads or writes meanwhile. -/
def add (i : Interner) (text : String) : Except InternError Name × Interner :=
  match i.names.get? text with
  | some n => (.ok n, i)
  | none =>
    if i.texts.size < capacity then
      (.ok ⟨i.texts.size⟩, ⟨i.names.insert text ⟨i.texts.size⟩, i.texts.push text⟩)
    else (.error (.overflow i.texts.size), i)

/-- The name of a text, or a failure when all names are issued, where the call looked first
at an earlier state of the table. Only if it found nothing there does it ask to write. -/
def tryInternSince (i earlier : Interner) (text : String) : Except InternError Name × Interner :=
  match earlier.names.get? text with
  | some n => (.ok n, i)
  | none => i.add text

/-- The name of a text, or a failure when all names are issued. -/
def tryIntern (i : Interner) (text : String) : Except InternError Name × Interner :=
  i.tryInternSince i text

/-- The text of a name. An index that was never issued reads as the empty text. -/
def text (i : Interner) (n : Name) : String := i.texts[n.index]?.getD ""

def size (i : Interner) : Nat := i.texts.size

/-- Whether at most the empty text has been seen. -/
def isEmpty (i : Interner) : Bool := i.size ≤ 1

/-- The texts that come first: the empty one, the operators, and the names with
a fixed meaning in masks. -/
def reserved : List String :=
  "" :: Primitive.all.map Primitive.symbol ++
    [".env", ".top_env", ".data", ".__tidyeval_data_mask__."]

/-- Interns texts in order. -/
def internAll (i : Interner) (texts : List String) : Interner :=
  texts.foldl (fun j t => (j.intern t).2) i

/-- An interner starts with the reserved texts. -/
def initial : Interner := blank.internAll reserved

/-- The reserved names stand for the texts that they are named for. -/
theorem text_initial_reserved :
    initial.text .empty = "" ∧ initial.text .tilde = "~" ∧ initial.text .env = ".env" ∧
      initial.text .topEnv = ".top_env" ∧ initial.text .data = ".data" ∧
      initial.text .maskFlag = ".__tidyeval_data_mask__." := by
  decide +kernel

end Interner

end Overscope
