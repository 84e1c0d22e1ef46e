-- Masks of list data. A list is accepted when it is empty, or when some entry has a usable
-- name and no two entries share one. The frame of data then binds each usable name to the
-- value of its one entry, and `.data` to the pronoun over the whole list.
import Overscope.Proofs.FreshMask
import Overscope.Proofs.NewParent

namespace Overscope

/-! ## Usable names -/

/-- The entry has the name `n`, and `n` is not the empty name. -/
def Entry.Usable (e : Entry) (n : Name) : Prop := e.name = some n ∧ n ≠ .empty

namespace Entries

def SomeUsable (entries : Entries) : Prop := ∃ e ∈ entries.toList, ∃ n, e.Usable n

/-- No two entries share a usable name. -/
def NoneShared (entries : Entries) : Prop :=
  entries.toList.Pairwise fun e f => ∀ n, ¬ (e.Usable n ∧ f.Usable n)

/-- What is collected are the entries with a usable name. -/
theorem mem_named_iff_usable {entries : Entries} {n : Name} {v : Value} :
    (n, v) ∈ entries.named ↔ ∃ e ∈ entries.toList, e.Usable n ∧ e.value = v := by
  rw [mem_named_iff]
  constructor
  · rintro ⟨he, hn⟩
    exact ⟨_, he, ⟨rfl, hn⟩, rfl⟩
  · rintro ⟨⟨name, w⟩, he, ⟨hname, hn⟩, rfl⟩
    rw [← hname]
    exact ⟨he, hn⟩

theorem hasNames_iff {entries : Entries} : entries.hasNames = true ↔ entries.SomeUsable := by
  rw [hasNames, Bool.not_eq_true', List.isEmpty_eq_false_iff_exists_mem]
  constructor
  · rintro ⟨⟨n, v⟩, hin⟩
    obtain ⟨e, he, hn, -⟩ := mem_named_iff_usable.1 hin
    exact ⟨e, he, n, hn⟩
  · rintro ⟨e, he, n, hn⟩
    exact ⟨(n, e.value), mem_named_iff_usable.2 ⟨e, he, hn, rfl⟩⟩

/-- The one name under which an entry is collected is its usable one. -/
theorem filterMap_usable_iff {e : Entry} {n : Name} {v : Value} :
    (match e.name with
      | some n => if n = Name.empty then none else some (n, e.value)
      | none => none) = some (n, v) ↔ e.Usable n ∧ e.value = v := by
  obtain ⟨_ | m, w⟩ := e
  · simp [Entry.Usable]
  · grind [Entry.Usable]

theorem nodup_named_iff {entries : Entries} :
    (entries.named.map Prod.fst).Nodup ↔ entries.NoneShared := by
  rw [named, List.Nodup, List.pairwise_map, List.pairwise_filterMap, NoneShared]
  refine List.Pairwise.iff fun e f => ⟨fun hne n hn => ?_, fun hnone p hp q hq hpq => ?_⟩
  · exact hne (n, e.value) (filterMap_usable_iff.2 ⟨hn.1, rfl⟩) (n, f.value)
      (filterMap_usable_iff.2 ⟨hn.2, rfl⟩) rfl
  · refine hnone p.1 ⟨(filterMap_usable_iff.1 hp).1, ?_⟩
    rw [hpq]
    exact (filterMap_usable_iff.1 hq).1

theorem firstDuplicate?_isSome_iff {entries : Entries} :
    entries.firstDuplicate?.isSome = true ↔ ¬ entries.NoneShared := by
  rw [← nodup_named_iff, ← firstDuplicate?_eq_none_iff, Option.isSome_iff_ne_none]

/-- A list without usable names has none to share. -/
theorem noneShared_of_not_someUsable {entries : Entries} (hn : ¬ entries.SomeUsable) :
    entries.NoneShared := by
  refine List.pairwise_iff_forall_sublist.2 fun {e f} hsub n hboth => hn ?_
  exact ⟨e, hsub.subset (List.mem_cons_self ..), n, hboth.1⟩

/-! ## What is wrong with a list -/

theorem defect?_eq_unnamed {entries : Entries} (hne : entries.toList ≠ [])
    (hn : ¬ entries.SomeUsable) : entries.defect? = some .unnamed := by
  have hnames : entries.hasNames = false := Bool.eq_false_iff.2 fun hh => hn (hasNames_iff.1 hh)
  simp [defect?, hne, hnames]

theorem defect?_eq_duplicated {entries : Entries} (hn : entries.SomeUsable)
    (hs : ¬ entries.NoneShared) : entries.defect? = some .duplicated := by
  have hne : entries.toList ≠ [] := List.ne_nil_of_mem hn.choose_spec.1
  simp [defect?, hne, hasNames_iff.2 hn, firstDuplicate?_isSome_iff.2 hs]

theorem defect?_eq_none {entries : Entries}
    (hok : entries.toList = [] ∨ entries.SomeUsable ∧ entries.NoneShared) :
    entries.defect? = none := by
  rcases hok with hnil | ⟨hn, hs⟩
  · simp [defect?, hnil]
  · have hfirst : entries.firstDuplicate? = none :=
      firstDuplicate?_eq_none_iff.2 (nodup_named_iff.2 hs)
    simp [defect?, hasNames_iff.2 hn, hfirst]

end Entries

/-! ## The frame of data -/

/-- Where the keys are distinct no pair takes the place of another one. -/
theorem Table.get?_foldl_insert_iff {κ α : Type} [DecidableEq κ] {ps : List (κ × α)}
    (hnodup : (ps.map Prod.fst).Nodup) {k : κ} {a : α} :
    (ps.foldl (fun t p => t.insert p.1 p.2) Table.empty).get? k = some a ↔ (k, a) ∈ ps := by
  refine ⟨fun hget => (Table.get?_foldl_insert hget).resolve_right (by simp), fun hin => ?_⟩
  -- From the last pair on: it was either the one, or it has another key.
  induction ps using List.reverseRecOn with
  | nil => cases hin
  | append_singleton ps p ih =>
    rw [List.map_append, List.nodup_append] at hnodup
    rw [List.foldl_append, List.foldl_cons, List.foldl_nil, Table.get?_insert]
    rcases List.mem_append.1 hin with hin | hin
    · have hne : k ≠ p.1 :=
        hnodup.2.2 k (List.mem_map_of_mem hin) p.1 (List.mem_singleton_self _)
      rw [if_neg (Ne.symm hne), ih hnodup.1 hin]
    · rw [← List.mem_singleton.1 hin, if_pos rfl]

/-- What the frame of data of a list binds. -/
def listBindings (kind : ListKind) (entries : Entries) : Table Name Value :=
  (entries.named.foldl (fun t p => t.insert p.1 p.2) Table.empty).insert .data
    (.pronoun (.list kind entries) kind.absence)

theorem get?_listBindings_iff {kind : ListKind} {entries : Entries} (hs : entries.NoneShared)
    {n : Name} (hn : n ≠ .data) {v : Value} :
    (listBindings kind entries).get? n = some v ↔
      ∃ e ∈ entries.toList, e.Usable n ∧ e.value = v := by
  rw [listBindings, Table.get?_insert, if_neg (Ne.symm hn),
    Table.get?_foldl_insert_iff (Entries.nodup_named_iff.2 hs), Entries.mem_named_iff_usable]

namespace Heap

variable {h t : Heap} {kind : ListKind} {entries : Entries} {parent mask : EnvId}

theorem maskOf_list_of_defect {defect : MaskDefect} (hd : entries.defect? = some defect) :
    h.maskOf (.list kind entries) parent = .error (.invalidDataMask defect) := by
  simp only [maskOf, hd]

/-- Without a defect the two frames of the mask are added. -/
theorem maskOf_list_of_none (hd : entries.defect? = none) :
    h.maskOf (.list kind entries) parent =
      .ok (((h.addData entries parent).2.bind h.newBottom .data
        (.pronoun (.list kind entries) kind.absence)).addMask h.newBottom h.newBottom parent) := by
  simp only [maskOf, hd, maskWithPronoun, maskOver_self]
  rfl

theorem frame?_newBottom_of_maskOf (hd : entries.defect? = none)
    (hm : h.maskOf (.list kind entries) parent = .ok (mask, t)) :
    t.frame? h.newBottom = some ⟨listBindings kind entries, some parent⟩ := by
  rw [maskOf_list_of_none hd] at hm
  have ht : (addMask _ h.newBottom h.newBottom parent).2 = t :=
    congrArg Prod.snd (Except.ok.inj hm)
  have hold : h.newBottom ≠ ⟨((h.addData entries parent).2.bind h.newBottom .data
      (.pronoun (.list kind entries) kind.absence)).size⟩ := by
    rw [bind, size_modify, (sameLinks_addData h entries parent).size, size_alloc]
    exact h.newMask_ne_newBottom.symm
  have hdata := (frame?_addData h entries parent h.newBottom).trans (if_pos rfl)
  rw [← ht, frame?_addMask, if_neg hold, frame?_bind, if_pos rfl, hdata]
  rfl

/-- `t` is `h` with a new mask for the list, in the frame `parent`. -/
structure ListMask (h : Heap) (kind : ListKind) (entries : Entries) (parent mask : EnvId)
    (t : Heap) : Prop where
  new : mask = h.newMask
  size : t.size = h.size + 2
  old : ∀ e, e.index < h.size → t.frame? e = h.frame? e
  /-- The mask binds the four names of a mask, whatever the entries are called. -/
  own : t.frame? mask = some ⟨maskBindings mask h.newBottom parent, some h.newBottom⟩
  bottom : t.Link h.newBottom parent
  pronoun : t.local? h.newBottom .data = some (.pronoun (.list kind entries) kind.absence)
  /-- Any other name is bound to the value of the entry that has it as a usable name. -/
  vars : ∀ n v, n ≠ .data →
    (t.local? h.newBottom n = some v ↔ ∃ e ∈ entries.toList, e.Usable n ∧ e.value = v)

theorem listMask_maskOf (hd : entries.defect? = none) (hs : entries.NoneShared)
    (hm : h.maskOf (.list kind entries) parent = .ok (mask, t)) :
    h.ListMask kind entries parent mask t := by
  obtain ⟨rfl, hfresh⟩ := freshMask_maskOf hm
  have hlocal : ∀ n, t.local? h.newBottom n = (listBindings kind entries).get? n := by
    intro n
    rw [local?, bindings, frame?_newBottom_of_maskOf hd hm]
    rfl
  exact
    { new := rfl
      size := hfresh.size
      old := hfresh.old
      own := hfresh.mask
      bottom := hfresh.link_bottom
      pronoun := by rw [hlocal, listBindings, Table.get?_insert, if_pos rfl]
      vars := fun n v hn => by rw [hlocal, get?_listBindings_iff hs hn] }

end Heap

/-! ## Building a mask of a list -/

/-- What comes of building a mask of a list in the frame `parent`. -/
structure Session.BuildsListMask (s : Session) (kind : ListKind) (entries : Entries)
    (parent : EnvId) (answer : Except Failure EnvId) (t : Session) : Prop where
  built_iff : (∃ mask, answer = .ok mask) ↔
    entries.toList = [] ∨ entries.SomeUsable ∧ entries.NoneShared
  /-- Of the session the scope graph alone has changed. -/
  built : ∀ mask, answer = .ok mask →
    t = { s with state := { s.state with heap := t.state.heap } } ∧
      s.state.heap.ListMask kind entries parent mask t.state.heap
  unnamed_iff : answer = .error (.evaluation (.invalidDataMask .unnamed)) ↔
    entries.toList ≠ [] ∧ ¬ entries.SomeUsable
  duplicated_iff : answer = .error (.evaluation (.invalidDataMask .duplicated)) ↔
    entries.SomeUsable ∧ ¬ entries.NoneShared
  /-- A list that is refused changes nothing. -/
  refused : ∀ failure, answer = .error failure → t = s

theorem Session.buildsListMask_of_error {s : Session} {kind : ListKind} {entries : Entries}
    {parent : EnvId} {defect : MaskDefect}
    (hok : ¬ (entries.toList = [] ∨ entries.SomeUsable ∧ entries.NoneShared))
    (hunnamed : defect = .unnamed ↔ entries.toList ≠ [] ∧ ¬ entries.SomeUsable)
    (hduplicated : defect = .duplicated ↔ entries.SomeUsable ∧ ¬ entries.NoneShared) :
    s.BuildsListMask kind entries parent (.error (.evaluation (.invalidDataMask defect))) s where
  built_iff := iff_of_false (fun ⟨mask, hm⟩ => by cases hm) hok
  built mask hm := by cases hm
  unnamed_iff := by simpa using hunnamed
  duplicated_iff := by simpa using hduplicated
  refused _ _ := rfl

/-- A list becomes a mask of exactly its usable names, or is refused for what is wrong with
its names. -/
theorem maskOf_list_exact (s : Session) (kind : ListKind) (entries : Entries) (parent : EnvId) :
    s.BuildsListMask kind entries parent
      (makeOnHeap (·.maskOf (.list kind entries) parent) s).1
      (makeOnHeap (·.maskOf (.list kind entries) parent) s).2 := by
  by_cases hok : entries.toList = [] ∨ entries.SomeUsable ∧ entries.NoneShared
  · have hd := Entries.defect?_eq_none hok
    have hm : s.state.heap.maskOf (.list kind entries) parent = .ok _ :=
      Heap.maskOf_list_of_none hd
    have hs : entries.NoneShared := by
      rcases hok with hnil | hok
      · rw [Entries.NoneShared, hnil]
        exact List.Pairwise.nil
      · exact hok.2
    rw [makeOnHeap_run_ok hm]
    exact
      { built_iff := iff_of_true ⟨_, rfl⟩ hok
        built := fun mask hmask => by
          cases hmask
          exact ⟨rfl, Heap.listMask_maskOf hd hs hm⟩
        unnamed_iff := iff_of_false (fun hf => by cases hf)
          fun hun => hok.elim hun.1 fun hok => hun.2 hok.1
        duplicated_iff := iff_of_false (fun hf => by cases hf) fun hdup => hdup.2 hs
        refused := fun failure hf => by cases hf }
  · have hne : entries.toList ≠ [] := fun hnil => hok (Or.inl hnil)
    by_cases hn : entries.SomeUsable
    · have hs : ¬ entries.NoneShared := fun hs => hok (Or.inr ⟨hn, hs⟩)
      rw [makeOnHeap_run_error (Heap.maskOf_list_of_defect (Entries.defect?_eq_duplicated hn hs))]
      exact Session.buildsListMask_of_error hok
        (iff_of_false (fun hd => by cases hd) fun hun => hun.2 hn) (iff_of_true rfl ⟨hn, hs⟩)
    · rw [makeOnHeap_run_error (Heap.maskOf_list_of_defect (Entries.defect?_eq_unnamed hne hn))]
      exact Session.buildsListMask_of_error hok (iff_of_true rfl ⟨hne, hn⟩)
        (iff_of_false (fun hd => by cases hd) fun hdup => hn hdup.1)

end Overscope
