-- Reading list entries by name. An entry with the empty name counts as unnamed
-- when the names are collected, and as named when a member is asked for.
import Overscope.Code.Basic

namespace Overscope

/-- One entry of a list, with or without a name. -/
structure Entry where
  name : Option Name
  value : Value

namespace Entries

def toList : Entries → List Entry
  | .nil => []
  | .cons name value rest => ⟨name, value⟩ :: rest.toList

def ofList : List Entry → Entries
  | [] => .nil
  | e :: es => .cons e.name e.value (ofList es)

/-- The value of the first entry with the given name. -/
def get? (entries : Entries) (name : Name) : Option Value :=
  (entries.toList.find? (·.name = some name)).map Entry.value

/-- The entries with a usable name, in order. -/
def named (entries : Entries) : List (Name × Value) :=
  entries.toList.filterMap fun e =>
    match e.name with
    | some n => if n = .empty then none else some (n, e.value)
    | none => none

/-- Whether some entry has a usable name. -/
def hasNames (entries : Entries) : Bool := !entries.named.isEmpty

/-- The first name of a list that is among the names seen before it. -/
def firstRepeat? (seen : List Name) : List Name → Option Name
  | [] => none
  | n :: ns => if n ∈ seen then some n else firstRepeat? (n :: seen) ns

/-- The first usable name that an earlier entry has too. -/
def firstDuplicate? (entries : Entries) : Option Name :=
  firstRepeat? [] (entries.named.map Prod.fst)

theorem firstRepeat?_eq_none_iff {seen ns : List Name} :
    firstRepeat? seen ns = none ↔ ns.Nodup ∧ ∀ n ∈ ns, n ∉ seen := by
  induction ns generalizing seen with
  | nil => simp [firstRepeat?]
  | cons n ns ih => by_cases hn : n ∈ seen <;> grind [firstRepeat?]

/-- No usable name is doubled when each stands on one entry. -/
theorem firstDuplicate?_eq_none_iff {entries : Entries} :
    entries.firstDuplicate? = none ↔ (entries.named.map Prod.fst).Nodup := by
  simp [firstDuplicate?, firstRepeat?_eq_none_iff]

/-- The usable names are those of the entries, without the empty one. -/
theorem mem_named_iff {entries : Entries} {n : Name} {v : Value} :
    (n, v) ∈ entries.named ↔ ⟨some n, v⟩ ∈ entries.toList ∧ n ≠ .empty := by
  unfold named
  rw [List.mem_filterMap]
  constructor
  · rintro ⟨⟨_ | m, w⟩, he, h⟩
    · simp at h
    · grind
  · rintro ⟨he, hn⟩
    exact ⟨_, he, by simp [hn]⟩

end Entries

end Overscope
