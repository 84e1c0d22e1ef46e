-- List data is read in two ways: by name in the frame of data, which was filled with the usable
-- names, and through the pronoun, which looks for the first entry of a name. As no two entries of
-- a list that was accepted share a usable name, the two agree on each name but the empty one: that
-- one is not usable, so the frame does not bind it, but the pronoun finds an entry that has it.
import Overscope.Proofs.ListData
import Overscope.Proofs.Pronoun

namespace Overscope

/-! ## One entry for each name -/

namespace Entries

variable {entries : Entries} {n : Name} {v : Value}

theorem noneShared_of_defect?_eq_none (hd : entries.defect? = none) : entries.NoneShared := by
  by_contra hshared
  have hsome : entries.SomeUsable := by
    by_contra hnone
    exact hshared (noneShared_of_not_someUsable hnone)
  rw [defect?_eq_duplicated hsome hshared] at hd
  cases hd

/-- Where no usable name is shared, the first entry of a usable name is the only one. -/
theorem get?_eq_some_iff_usable (hs : entries.NoneShared) (hn : n ≠ .empty) :
    entries.get? n = some v ↔ ∃ e ∈ entries.toList, e.Usable n ∧ e.value = v := by
  rw [get?_eq_some_iff]
  constructor
  · rintro ⟨before, after, hlist, -⟩
    refine ⟨⟨some n, v⟩, ?_, ⟨rfl, hn⟩, rfl⟩
    rw [hlist]
    exact List.mem_append_right before (List.mem_cons_self ..)
  · rintro ⟨⟨name, w⟩, he, ⟨rfl, -⟩, rfl⟩
    obtain ⟨before, after, hlist⟩ := List.append_of_mem he
    refine ⟨before, after, hlist, fun f hf hname => ?_⟩
    rw [NoneShared, hlist, List.pairwise_append] at hs
    exact hs.2.2 f hf _ (List.mem_cons_self ..) n ⟨⟨hname, hn⟩, rfl, hn⟩

theorem get?_eq_none_iff : entries.get? n = none ↔ ∀ e ∈ entries.toList, e.name ≠ some n := by
  rw [get?, Option.map_eq_none_iff, List.find?_eq_none]
  simp only [decide_eq_true_iff]

end Entries

/-! ## The two readers -/

/-- The frame of data and the pronoun say the same of a name. -/
structure State.ReadersAgree (s : State) (mask bottom : EnvId) (source : DataSource) (n : Name) :
    Prop where
  /-- The frame binds the name exactly where the pronoun has a value for it, to that value. -/
  binds : s.heap.local? bottom n = source.get? s.heap n
  /-- So the name is a member of `.data` exactly where the frame binds it. -/
  member : ∀ head, (head.resolve mask s).1 = .ok (.builtin .member) → ∀ v,
    ((Expr.ofData head (.symbol n)).eval .unlimited mask s).1 = .ok v ↔
      s.heap.local? bottom n = some v

theorem found_eq_ok_iff {α : Type} {e : EvalError} {found? : Option α} {a : α} :
    found e found? = .ok a ↔ found? = some a := by
  cases found? with
  | none => simp [found]
  | some b => simp [found]

section
variable {h : Heap} {kind : ListKind} {entries : Entries} {parent mask : EnvId} {s : State}
  {n : Name}

/-- It is enough that they have the same values. -/
theorem State.readersAgree_of_binds
    (hbuilt : h.maskOf (.list kind entries) parent = .ok (mask, s.heap))
    (hbinds : s.heap.local? h.newBottom n = (DataSource.list kind entries).get? s.heap n) :
    s.ReadersAgree mask h.newBottom (.list kind entries) n where
  binds := hbinds
  member head hhead v := by
    rw [State.eval_ofData (Heap.offersData_of_maskOf rfl hbuilt) hhead .symbol, hbinds]
    exact found_eq_ok_iff

/-- In the mask of a list that was accepted the readers agree on a name, unless it is the empty
one and an entry has it. -/
theorem readersAgree_iff (hbuilt : h.maskOf (.list kind entries) parent = .ok (mask, s.heap))
    (hn : n ≠ .data) :
    s.ReadersAgree mask h.newBottom (.list kind entries) n ↔
      (n = .empty → ∀ e ∈ entries.toList, e.name ≠ some .empty) := by
  have hd : entries.defect? = none := by
    rcases hdefect : entries.defect? with _ | defect
    · rfl
    · rw [Heap.maskOf_list_of_defect hdefect] at hbuilt
      cases hbuilt
  have hs := Entries.noneShared_of_defect?_eq_none hd
  have hvars := fun v => (Heap.listMask_maskOf hd hs hbuilt).vars n v hn
  by_cases hempty : n = .empty
  · subst hempty
    -- No entry makes the empty name usable, so the frame does not bind it.
    have hnone : s.heap.local? h.newBottom .empty = none := by
      rw [Option.eq_none_iff_forall_ne_some]
      intro v hv
      obtain ⟨e, -, ⟨-, hne⟩, -⟩ := (hvars v).1 hv
      exact hne rfl
    constructor
    · intro hagree _
      exact Entries.get?_eq_none_iff.1 (hagree.binds.symm.trans hnone)
    · intro hall
      exact State.readersAgree_of_binds hbuilt
        (hnone.trans (Entries.get?_eq_none_iff.2 (hall rfl)).symm)
  · refine iff_of_true (State.readersAgree_of_binds hbuilt ?_) fun heq => absurd heq hempty
    apply Option.ext
    intro v
    exact (hvars v).trans (Entries.get?_eq_some_iff_usable hs hempty).symm

end

/-- A list with the entries `1`, under the empty name, and `a = 2`. -/
def Entries.sampleUnnamed : Entries := .ofList [⟨some .empty, .int 1⟩, ⟨some ⟨12⟩, .int 2⟩]

/-- A mask ⟨3⟩ for that list, over the frame ⟨2⟩. -/
def State.sampleUnnamed : State :=
  { State.initial with
    interner := Interner.initial.internAll ["a"]
    heap := match Heap.initial.maskOf (.list .plain .sampleUnnamed) .global with
      | .ok (_, h) => h
      | .error _ => .initial
    held := [.base, .global, ⟨3⟩] }

/-- The readers agree on `a`. -/
theorem readersAgree_iff_sampleUnnamed :
    Heap.initial.maskOf (.list .plain .sampleUnnamed) .global =
        .ok (⟨3⟩, State.sampleUnnamed.heap) ∧ (⟨12⟩ : Name) ≠ .data ∧
      State.sampleUnnamed.ReadersAgree ⟨3⟩ ⟨2⟩ (.list .plain .sampleUnnamed) ⟨12⟩ ∧
      (State.sampleUnnamed.heap.local? ⟨2⟩ ⟨12⟩).map (· == .int 2) = some true := by
  have hbuilt : Heap.initial.maskOf (.list .plain .sampleUnnamed) .global =
      .ok (⟨3⟩, State.sampleUnnamed.heap) := rfl
  have hn : (⟨12⟩ : Name) ≠ .data := by decide
  refine ⟨hbuilt, hn, (readersAgree_iff hbuilt hn).2 ?_, by decide +kernel⟩
  intro heq
  exact absurd heq (by decide)

/-- The frame of data does not bind the empty name, and `.data$""` is `1`. -/
theorem not_readersAgree_sampleUnnamed :
    Heap.initial.maskOf (.list .plain .sampleUnnamed) .global =
        .ok (⟨3⟩, State.sampleUnnamed.heap) ∧
      Name.empty ∉ Name.data :: maskNames ∧
      ¬ State.sampleUnnamed.ReadersAgree ⟨3⟩ ⟨2⟩ (.list .plain .sampleUnnamed) .empty ∧
      State.sampleUnnamed.heap.hasLocal ⟨2⟩ .empty = false ∧
      ((Expr.ofData (.symbol Primitive.member.name) (.const (.str ""))).eval .unlimited ⟨3⟩
        .sampleUnnamed).1.toOption.map (· == .int 1) = some true := by
  refine ⟨rfl, by decide, fun hagree => ?_, by decide +kernel, by decide +kernel⟩
  have hbinds := congrArg Option.isSome hagree.binds
  exact absurd hbinds (by decide +kernel)

end Overscope
