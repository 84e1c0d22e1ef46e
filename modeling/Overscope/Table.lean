-- Finite tables: pairs of a key and a value, each key once, in the order in
-- which the keys came. The bindings of a frame, the registers of a session and
-- the labels of its environments are tables. Writing a value back over a change
-- gives the old table again, with no other trace.
namespace Overscope

/-! ## Pairs with one value for each key -/

/-- A list of pairs with `a` under the key `k`: in the place of the pair that
has the key, or at the end. -/
def putPair {κ α : Type} [DecidableEq κ] (k : κ) (a : α) : List (κ × α) → List (κ × α)
  | [] => [(k, a)]
  | p :: ps => if p.1 = k then (k, a) :: ps else p :: putPair k a ps

variable {κ α : Type} [DecidableEq κ]

theorem lookup_eq_none_iff_not_mem {k : κ} {ps : List (κ × α)} :
    ps.lookup k = none ↔ k ∉ ps.map Prod.fst := by
  grind [List.lookup_eq_none_iff]

theorem map_fst_putPair (k : κ) (a : α) (ps : List (κ × α)) :
    (putPair k a ps).map Prod.fst =
      if k ∈ ps.map Prod.fst then ps.map Prod.fst else ps.map Prod.fst ++ [k] := by
  induction ps with
  | nil => simp [putPair]
  | cons p ps ih => by_cases h : p.1 = k <;> grind [putPair]

theorem nodup_putPair {k : κ} {a : α} {ps : List (κ × α)} (h : (ps.map Prod.fst).Nodup) :
    ((putPair k a ps).map Prod.fst).Nodup := by
  rw [map_fst_putPair]
  split
  · exact h
  · rw [List.nodup_append]
    grind

theorem lookup_putPair (k j : κ) (a : α) (ps : List (κ × α)) :
    (putPair k a ps).lookup j = if k = j then some a else ps.lookup j := by
  induction ps with
  | nil => grind [putPair]
  | cons p ps ih => by_cases h : p.1 = k <;> grind [putPair]

theorem putPair_putPair {k : κ} {a b : α} {ps : List (κ × α)} (h : ps.lookup k = some a) :
    putPair k a (putPair k b ps) = ps := by
  induction ps with
  | nil => simp at h
  | cons p ps ih =>
    obtain ⟨k', a'⟩ := p
    by_cases hp : k' = k <;> grind [putPair]

theorem lookup_filter_ne (k j : κ) (ps : List (κ × α)) :
    (ps.filter (·.1 ≠ k)).lookup j = if k = j then none else ps.lookup j := by
  induction ps with
  | nil => simp
  | cons p ps ih => by_cases h : p.1 = k <;> grind

theorem filter_ne_putPair {k : κ} {b : α} {ps : List (κ × α)} (h : ps.lookup k = none) :
    (putPair k b ps).filter (·.1 ≠ k) = ps := by
  induction ps with
  | nil => simp [putPair]
  | cons p ps ih => by_cases hp : p.1 = k <;> grind [putPair]

/-! ## Tables -/

/-- A finite map: pairs in the order in which their keys came, each key once. -/
structure Table (κ α : Type) where
  entries : List (κ × α)
  nodup : (entries.map Prod.fst).Nodup

namespace Table

def empty : Table κ α := ⟨[], by simp⟩

def get? (t : Table κ α) (k : κ) : Option α := t.entries.lookup k

def contains (t : Table κ α) (k : κ) : Bool := (t.get? k).isSome

/-- The table with `a` under `k`, in place of what was there. -/
def insert (t : Table κ α) (k : κ) (a : α) : Table κ α :=
  ⟨putPair k a t.entries, nodup_putPair t.nodup⟩

/-- The table with nothing under `k`. -/
def erase (t : Table κ α) (k : κ) : Table κ α :=
  ⟨t.entries.filter (·.1 ≠ k), t.nodup.sublist (List.filter_sublist.map _)⟩

def keys (t : Table κ α) : List κ := t.entries.map Prod.fst

def values (t : Table κ α) : List α := t.entries.map Prod.snd

def size (t : Table κ α) : Nat := t.entries.length

def isEmpty (t : Table κ α) : Bool := t.entries.isEmpty

/-- Puts a slot back to what it held: a value, or nothing. -/
def restore (t : Table κ α) (k : κ) : Option α → Table κ α
  | some a => t.insert k a
  | none => t.erase k

omit [DecidableEq κ] in
@[ext]
theorem ext {t u : Table κ α} (h : t.entries = u.entries) : t = u := by
  cases t; cases u; simp_all

@[simp]
theorem get?_empty (k : κ) : (empty : Table κ α).get? k = none := rfl

theorem get?_insert (t : Table κ α) (k j : κ) (a : α) :
    (t.insert k a).get? j = if k = j then some a else t.get? j :=
  lookup_putPair k j a t.entries

theorem get?_erase (t : Table κ α) (k j : κ) :
    (t.erase k).get? j = if k = j then none else t.get? j :=
  lookup_filter_ne k j t.entries

theorem mem_keys_iff {t : Table κ α} {k : κ} : k ∈ t.keys ↔ (t.get? k).isSome := by
  rw [Option.isSome_iff_ne_none, get?, ne_eq, lookup_eq_none_iff_not_mem, Classical.not_not, keys]

/-- Writing into a slot and putting back what it held is no change at all. -/
theorem restore_insert (t : Table κ α) (k : κ) (b : α) :
    (t.insert k b).restore k (t.get? k) = t := by
  cases h : t.get? k with
  | some a => exact Table.ext (putPair_putPair h)
  | none => exact Table.ext (filter_ne_putPair h)

theorem erase_eq_self {t : Table κ α} {k : κ} (h : t.get? k = none) : t.erase k = t := by
  apply Table.ext
  rw [erase, List.filter_eq_self]
  intro p hp
  have hk := lookup_eq_none_iff_not_mem.1 h
  grind

end Table

end Overscope
