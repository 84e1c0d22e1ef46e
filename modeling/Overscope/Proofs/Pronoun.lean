-- The `.data` pronoun of a mask. While a quosure is evaluated another scope goes on above the
-- frame of data, and each scope may bind `.data` itself, but nothing comes between the mask and
-- its frame of data. So the name is bound by that frame wherever it is looked up in the mask,
-- and what is read through it is the data alone.
import Overscope.Proofs.Interning
import Overscope.Proofs.Splicing

namespace Overscope

/-! ## What data holds -/

/-- The data that the pronoun of a mask reads. A mask without data has no pronoun. -/
def Value.dataSource? : Value → Option DataSource
  | .list kind entries => some (.list kind entries)
  | .env e => some (.env e)
  | _ => none

namespace DataSource

/-- The wording for a name that the data does not have. -/
def absence : DataSource → String
  | .list kind _ => kind.absence
  | .env _ => absenceInEnv

/-- What is said of a name that the data does not have. -/
def missing (text : String) : DataSource → String
  | .list .plain _ => "Object `" ++ text ++ "` not found in data"
  | .list .dataFrame _ => "Column `" ++ text ++ "` not found in data"
  | .env _ => "Object `" ++ text ++ "` not found in environment"

/-- The data has the value under the name: in the first entry of a list that has the name, or
as a binding of the frame of an environment. -/
inductive Holds (h : Heap) (n : Name) (v : Value) : DataSource → Prop
  | list {kind : ListKind} {entries : Entries} {before after : List Entry} :
      entries.toList = before ++ ⟨some n, v⟩ :: after → (∀ e ∈ before, e.name ≠ some n) →
      Holds h n v (.list kind entries)
  | env {e : EnvId} : h.local? e n = some v → Holds h n v (.env e)

end DataSource

/-- The name takes the first place that is marked for it. -/
theorem fillPlace_append (name : List Char) {front : List Char} (hf : '%' ∉ front)
    (back : List Char) : fillPlace name (front ++ '%' :: 's' :: back) = front ++ name ++ back := by
  induction front with
  | nil => rfl
  | cons c front ih =>
    rw [List.mem_cons, not_or] at hf
    rw [List.cons_append, fillPlace, ih hf.2, List.cons_append, List.cons_append]
    intro rest hc
    exact absurd hc.symm hf.1

theorem message_of_wording {wording front back : String}
    (hw : wording.toList = front.toList ++ '%' :: 's' :: back.toList) (hf : '%' ∉ front.toList)
    (text : String) : (EvalError.absentFromData wording text).message = front ++ text ++ back := by
  show String.ofList _ = _
  rw [hw, fillPlace_append _ hf, String.ofList_append, String.ofList_append,
    String.ofList_toList, String.ofList_toList, String.ofList_toList]

theorem Entries.get?_eq_some_iff {entries : Entries} {n : Name} {v : Value} :
    entries.get? n = some v ↔ ∃ before after,
      entries.toList = before ++ ⟨some n, v⟩ :: after ∧ ∀ e ∈ before, e.name ≠ some n := by
  rw [get?, Option.map_eq_some_iff]
  constructor
  · rintro ⟨⟨name, w⟩, hfound, rfl⟩
    obtain ⟨hname, before, after, hlist, hbefore⟩ := List.find?_eq_some_iff_append.1 hfound
    rw [decide_eq_true_iff] at hname
    refine ⟨before, after, ?_, ?_⟩
    · rw [← hname]
      exact hlist
    · intro e he
      simpa using hbefore e he
  · rintro ⟨before, after, hlist, hbefore⟩
    refine ⟨⟨some n, v⟩, List.find?_eq_some_iff_append.2 ⟨by simp, before, after, hlist, ?_⟩, rfl⟩
    intro e he
    simpa using hbefore e he

namespace DataSource

/-- A pronoun reads what the data has. -/
theorem get?_eq_some_iff {h : Heap} {source : DataSource} {n : Name} {v : Value} :
    source.get? h n = some v ↔ source.Holds h n v := by
  cases source with
  | list kind entries =>
    refine Entries.get?_eq_some_iff.trans ⟨?_, ?_⟩
    · rintro ⟨before, after, hlist, hbefore⟩
      exact .list hlist hbefore
    · rintro ⟨hlist, hbefore⟩
      exact ⟨_, _, hlist, hbefore⟩
  | env e =>
    constructor
    · intro hlocal
      exact .env hlocal
    · intro hholds
      cases hholds with
      | env hlocal => exact hlocal

theorem get?_eq_none_iff {h : Heap} {source : DataSource} {n : Name} :
    source.get? h n = none ↔ ∀ v, ¬ source.Holds h n v := by
  simp only [Option.eq_none_iff_forall_ne_some, ne_eq, get?_eq_some_iff]

/-- The message for an absent name is the wording with the name in its place. -/
theorem message_absence (source : DataSource) (text : String) :
    (EvalError.absentFromData source.absence text).message = source.missing text := by
  rcases source with ⟨_ | _, entries⟩ | e
  · show (EvalError.absentFromData "Object `%s` not found in data" text).message = _
    exact message_of_wording (by decide) (by decide) text
  · show (EvalError.absentFromData "Column `%s` not found in data" text).message = _
    exact message_of_wording (by decide) (by decide) text
  · show (EvalError.absentFromData "Object `%s` not found in environment" text).message = _
    exact message_of_wording (by decide) (by decide) text

end DataSource

/-! ## Reading a member -/

/-- The call of a head on `.data` and a member. -/
def Expr.ofData (head : Head) (member : Expr) : Expr :=
  .call head (.ofList [.symbol .data, member])

/-- A member that is written as the name `n`: the symbol, or a text of that name. A text may be
new to the interner, which is the last one once it has read the member. -/
inductive Expr.Spells (i : Interner) (n : Name) : Expr → Interner → Prop
  | symbol : Spells i n (.symbol n) i
  | text {text : String} : (i.intern text).1 = n →
      Spells i n (.const (.str text)) (i.intern text).2

theorem Expr.Spells.memberName_run {s : State} {n : Name} {member : Expr} {i : Interner}
    (hm : member.Spells s.interner n i) :
    member.memberName s = (.ok n, { s with interner := i }) := by
  cases hm with
  | symbol => rfl
  | text hn =>
    rw [← hn]
    rfl

theorem Value.member_pronoun_run (source : DataSource) (absence : String) (n : Name) (s : State) :
    (Value.pronoun source absence).member n s =
      (found (.absentFromData absence (s.interner.text n)) (source.get? s.heap n), s) := by
  simp only [Value.member, Attempt.bind_run, Attempt.read]
  rcases source.get? s.heap n with _ | v <;> rfl

/-- In the mask `.data` gives what the data has, whatever head stands for `$`, and however the
name is written. -/
structure State.ReadsData (s : State) (mask : EnvId) (source : DataSource) : Prop where
  present : ∀ {head : Head} {member : Expr} {n : Name} {i : Interner} {v : Value},
    (head.resolve mask s).1 = .ok (.builtin .member) → member.Spells s.interner n i →
    source.Holds s.heap n v →
    (Expr.ofData head member).eval .unlimited mask s = (.ok v, { s with interner := i })
  absent : ∀ {head : Head} {member : Expr} {n : Name} {i : Interner},
    (head.resolve mask s).1 = .ok (.builtin .member) → member.Spells s.interner n i →
    (∀ v, ¬ source.Holds s.heap n v) →
    (Expr.ofData head member).eval .unlimited mask s =
      (.error (.absentFromData source.absence (i.text n)), { s with interner := i })
  message : ∀ text, (EvalError.absentFromData source.absence text).message = source.missing text
  /-- The text of a name that was issued is read as the symbol is. -/
  spellings : ∀ {head : Head} {n : Name}, s.interner.Lawful → n.index < s.interner.size →
    (head.resolve mask s).1 = .ok (.builtin .member) →
    (Expr.ofData head (.const (.str (s.interner.text n)))).eval .unlimited mask s =
      (Expr.ofData head (.symbol n)).eval .unlimited mask s

namespace Heap

variable {h t : Heap} {mask bottom : EnvId} {source : DataSource}

/-- What the two frames of the mask bind `.data` to. -/
structure BindsPronoun (h : Heap) (mask bottom : EnvId) (source : DataSource) : Prop where
  unbound : h.local? mask .data = none
  pronoun : h.local? bottom .data = some (.pronoun source source.absence)

/-- The mask goes on in a frame that binds the pronoun. -/
structure OffersData (h : Heap) (mask bottom : EnvId) (source : DataSource) : Prop
    extends h.BindsPronoun mask bottom source where
  link : h.Link mask bottom

/-- So what comes above the frame of data does not matter. -/
theorem OffersData.resolve? (ho : h.OffersData mask bottom source) :
    h.resolve? mask .data = some (.pronoun source source.absence) := by
  rw [resolve?_of_link ho.link, ho.unbound, Option.none_or, resolve?_of_local? ho.pronoun]

end Heap

namespace State

variable {s t : State} {mask bottom : EnvId} {source : DataSource}

theorem eval_ofData (ho : s.heap.OffersData mask bottom source) {head : Head}
    (hhead : (head.resolve mask s).1 = .ok (.builtin .member)) {member : Expr} {n : Name}
    {i : Interner} (hmember : member.Spells s.interner n i) :
    (Expr.ofData head member).eval .unlimited mask s =
      (found (.absentFromData source.absence (i.text n)) (source.get? s.heap n),
        { s with interner := i }) := by
  let inner : State := { s with depth := s.depth + 1 }
  have hresolve : head.resolve mask inner = (.ok (.builtin .member), inner) :=
    Head.resolve_of_heap (s := s) rfl hhead
  have hpronoun : (Expr.symbol .data).eval .unlimited mask inner =
      (.ok (.pronoun source source.absence), inner) := by
    have hdata : inner.heap.resolve? mask .data = _ := ho.resolve?
    simp only [Expr.eval, Attempt.bind_run, Attempt.read, hdata]
    rfl
  have hname : member.memberName inner = (.ok n, { inner with interner := i }) :=
    Expr.Spells.memberName_run (s := inner) hmember
  have hread := Value.member_pronoun_run source source.absence n { inner with interner := i }
  show (CallSite.mk head ((Args.ofList [.symbol .data, member]).operands .unlimited)
    none).eval .unlimited mask s = _
  rw [CallSite.eval_eq_dispatch]
  refine nested_unlimited_run rfl ?_
  rw [Attempt.bind_run_ok hresolve]
  show ((Expr.symbol .data).eval .unlimited mask >>= fun v =>
    member.memberName >>= fun name => v.member name) inner = _
  rw [Attempt.bind_run_ok hpronoun, Attempt.bind_run_ok hname, hread]

/-- What is read is the data alone. -/
theorem readsData_of_offersData (ho : s.heap.OffersData mask bottom source) :
    s.ReadsData mask source where
  present hhead hmember hholds := by
    rw [eval_ofData ho hhead hmember, DataSource.get?_eq_some_iff.2 hholds]
    rfl
  absent hhead hmember hnone := by
    rw [eval_ofData ho hhead hmember, DataSource.get?_eq_none_iff.2 hnone]
    rfl
  message := source.message_absence
  spellings {head n} hlaw hissued hhead := by
    have hintern := (Interner.bijective_of_lawful hlaw).intern_text n hissued
    have hmember : (Expr.const (.str (s.interner.text n))).Spells s.interner n
        (s.interner.intern (s.interner.text n)).2 := .text (by rw [hintern])
    rw [eval_ofData ho hhead hmember, eval_ofData ho hhead .symbol, hintern]

end State

/-! ## Masks that stay as they were built -/

namespace Heap

variable {h h' t : Heap} {mask bottom : EnvId} {source : DataSource}

/-- The mask stays what it was: its parent, and what its two frames bind `.data` to. -/
structure KeepsData (h : Heap) (mask bottom : EnvId) (h' : Heap) : Prop where
  parent : h'.parent? mask = h.parent? mask
  mask : h'.local? mask .data = h.local? mask .data
  bottom : h'.local? bottom .data = h.local? bottom .data

theorem BindsPronoun.of_same (hb : h.BindsPronoun mask bottom source)
    (hmask : h'.local? mask .data = h.local? mask .data)
    (hbottom : h'.local? bottom .data = h.local? bottom .data) :
    h'.BindsPronoun mask bottom source :=
  ⟨by rw [hmask, hb.unbound], by rw [hbottom, hb.pronoun]⟩

theorem OffersData.keeps (ho : h.OffersData mask bottom source)
    (hk : h.KeepsData mask bottom h') : h'.OffersData mask bottom source where
  toBindsPronoun := ho.toBindsPronoun.of_same hk.mask hk.bottom
  link := by
    rw [Link, hk.parent]
    exact ho.link

theorem local?_maskWithPronoun {absence : String} {parent : EnvId} (hl : h.isLive bottom)
    (hm : h.maskWithPronoun bottom source absence parent = .ok (mask, t)) :
    t.local? bottom .data = some (.pronoun source absence) := by
  rw [maskWithPronoun, maskOver_self] at hm
  have ht : (addMask _ bottom bottom parent).2 = t := congrArg Prod.snd (Except.ok.inj hm)
  have hold : bottom ≠ ⟨(h.bind bottom .data (.pronoun source absence)).size⟩ := by
    intro heq
    have hlt := index_lt_size hl
    rw [heq, bind, size_modify] at hlt
    exact Nat.lt_irrefl _ hlt
  rw [← ht, local?, bindings, frame?_addMask, if_neg hold, ← bindings, ← local?, local?_bind,
    if_pos ⟨rfl, hl, rfl⟩]

/-- A mask offers the data that it is built from. -/
theorem offersData_of_maskOf {data : Value} {parent : EnvId}
    (hsource : data.dataSource? = some source) (hm : h.maskOf data parent = .ok (mask, t)) :
    t.OffersData mask h.newBottom source := by
  have hpronoun : t.local? h.newBottom .data = some (.pronoun source source.absence) := by
    cases data with
    | list kind entries =>
      cases hsource
      simp only [maskOf] at hm
      split at hm
      · cases hm
      · refine local?_maskWithPronoun ?_ hm
        show isLive _ ⟨h.size⟩
        rw [isLive, frame?_addData, if_pos rfl]
        rfl
    | env e =>
      cases hsource
      refine local?_maskWithPronoun ?_ hm
      exact congrArg Option.isSome (frame?_alloc_self h ⟨h.bindings e, some parent⟩)
    | _ => cases hsource
  obtain ⟨rfl, hfresh⟩ := freshMask_maskOf hm
  refine ⟨⟨?_, hpronoun⟩, hfresh.link_mask⟩
  rw [hfresh.local?_mask]
  rfl

/-- No overscope has the mask frame as its top frame, so that no quosure gives the mask another
parent. -/
def NoneOnto (h : Heap) (mask : EnvId) : Prop :=
  ∀ e name o, h.local? e name = some (.override o) → o.top ≠ mask

theorem noneOnto_iff : h.NoneOnto mask ↔
    ∀ e name v, h.local? e name = some v → ∀ o ∈ v.override?, o.top ≠ mask := by
  refine ⟨fun hn e name v hv o ho => ?_, fun hall e name o ho => hall e name _ ho o rfl⟩
  cases v with
  | override o' =>
    cases ho
    exact hn e name o hv
  | _ => cases ho

instance (h : Heap) (mask : EnvId) : Decidable (h.NoneOnto mask) :=
  decidable_of_iff' _ (noneOnto_iff.trans forall_local?_iff)

/-- The old frames are the same ones, and overrides in new frames have another top frame. -/
theorem NoneOnto.of_old (hn : h.NoneOnto mask)
    (hold : ∀ e, e.index < h.size → h'.frame? e = h.frame? e)
    (hnew : ∀ e, h.size ≤ e.index → ∀ name o,
      h'.local? e name = some (.override o) → o.top ≠ mask) : h'.NoneOnto mask := by
  intro e name o ho
  rcases Nat.lt_or_ge e.index h.size with he | he
  · rw [local?_congr (hold e he)] at ho
    exact hn e name o ho
  · exact hnew e he name o ho

theorem OffersData.of_old (ho : h.OffersData mask bottom source)
    (hold : ∀ e, e.index < h.size → h'.frame? e = h.frame? e) :
    h'.OffersData mask bottom source := by
  have hmask := hold mask (index_lt_size (isLive_of_parent? ho.link))
  have hbottom := hold bottom
    (index_lt_size (isLive_of_local? ho.pronoun))
  exact ho.keeps ⟨parent?_congr hmask, local?_congr hmask .data, local?_congr hbottom .data⟩

/-- Pointing another mask, or this one. -/
theorem OffersData.pointAt (ho : h.OffersData mask bottom source) {other top : EnvId}
    (htop : top ≠ mask) (scope : EnvId) :
    (h.pointAt other top scope).OffersData mask bottom source := by
  refine ho.keeps ⟨?_, ?_, ?_⟩
  · rw [parent?_pointAt, if_neg htop]
  · rw [local?_pointAt, if_neg fun hc => absurd hc.2.2 (by decide)]
  · rw [local?_pointAt, if_neg fun hc => absurd hc.2.2 (by decide)]

/-- A mask that is held keeps its frame of data alive. -/
theorem OffersData.sweep (ho : h.OffersData mask bottom source) {held : List EnvId}
    (hheld : mask ∈ held) : (h.sweep held).OffersData mask bottom source := by
  have hmask := frame?_sweep_of_isLive (isLive_sweep_of_mem hheld (isLive_of_parent? ho.link))
  have hbottom := frame?_sweep_of_link ho.link hmask
  exact ho.keeps ⟨parent?_congr hmask, local?_congr hmask .data, local?_congr hbottom .data⟩

end Heap

/-! ## Inside of quosures -/

namespace State

variable {s t : State} {mask bottom : EnvId} {source : DataSource}

/-- The points inside of quosures that are evaluated in the mask, one in the other: any call
deeper, whatever was learned on the way, and in any scope that is not refused. -/
inductive Inside (mask top : EnvId) (s : State) : State → Prop
  | start : Inside mask top s s
  | deeper {t : State} : Inside mask top s t →
      Inside mask top s { t with depth := t.depth + 1 }
  | learned {t t' : State} : Inside mask top s t → t.LearnsTo t' → Inside mask top s t'
  | quosure {t : State} {target : EnvId} : Inside mask top s t →
      t.heap.hasAncestor target top = false → Inside mask top s (t.spliced mask top target)

/-- Where a scope is spliced in, `.env` alone may be bound anew. -/
theorem bindsPronoun_spliced (hb : s.heap.BindsPronoun mask bottom source)
    (overscope top target : EnvId) :
    (s.spliced overscope top target).heap.BindsPronoun mask bottom source := by
  have hdata : ∀ e, (s.spliced overscope top target).heap.local? e .data =
      s.heap.local? e .data := by
    intro e
    rw [local?_spliced, Heap.spliceLocal?, if_neg fun hc => absurd hc.2.2 (by decide)]
  exact hb.of_same (hdata mask) (hdata bottom)

theorem offersData_spliced (ho : s.heap.OffersData mask bottom source) {top : EnvId}
    (htop : top ≠ mask) (overscope target : EnvId) :
    (s.spliced overscope top target).heap.OffersData mask bottom source where
  toBindsPronoun := bindsPronoun_spliced ho.toBindsPronoun overscope top target
  link := by
    rw [Heap.Link, parent?_spliced, if_neg fun hc => htop hc.1]
    exact ho.link

theorem noneOnto_spliced (hn : s.heap.NoneOnto mask) (overscope top target : EnvId) :
    (s.spliced overscope top target).heap.NoneOnto mask := by
  intro e name o ho
  rw [local?_spliced, Heap.spliceLocal?] at ho
  split at ho
  · cases ho
  · exact hn e name o ho

/-- However quosures are nested in the mask, the data is offered. -/
theorem offersData_of_inside (ho : s.heap.OffersData mask bottom source) (hne : bottom ≠ mask)
    (ht : s.Inside mask bottom t) : t.heap.OffersData mask bottom source := by
  induction ht with
  | start => exact ho
  | deeper _ ih => exact ih
  | learned _ hl ih =>
    rw [hl.heap]
    exact ih
  | quosure _ _ ih => exact offersData_spliced ih hne _ _

/-- A state in which the frames of the mask bind the pronoun. -/
structure HasPronoun (mask bottom : EnvId) (source : DataSource) (s : State) : Prop where
  settled : s.heap.Settled s.held
  binds : s.heap.BindsPronoun mask bottom source

/-- A state in which the data is offered, and no override takes the mask off its frame of data. -/
structure StandsOver (mask bottom : EnvId) (source : DataSource) (s : State) : Prop where
  settled : s.heap.Settled s.held
  offers : s.heap.OffersData mask bottom source
  noneOnto : s.heap.NoneOnto mask

theorem preserved_hasPronoun (mask bottom : EnvId) (source : DataSource) :
    Preserved (fun _ => True) (HasPronoun mask bottom source) (fun _ => True)
      fun _ => True where
  settled hs := hs.settled
  learns hs hl := ⟨hl.settled hs.settled, by rw [hl.heap]; exact hs.binds⟩
  nested hs := ⟨hs.settled, hs.binds⟩
  override _ _ _ := trivial
  mask _ := trivial
  scope _ _ := trivial
  spliced hs _ _ _ := ⟨settled_spliced hs.settled _ _ _, bindsPronoun_spliced hs.binds _ _ _⟩

theorem preserved_standsOver (mask bottom : EnvId) (source : DataSource) :
    Preserved (fun _ => True) (StandsOver mask bottom source) (·.top ≠ mask)
      fun _ => True where
  settled hs := hs.settled
  learns hs hl := ⟨hl.settled hs.settled, by rw [hl.heap]; exact hs.offers,
    by rw [hl.heap]; exact hs.noneOnto⟩
  nested hs := ⟨hs.settled, hs.offers, hs.noneOnto⟩
  override hs _ ho := by
    obtain ⟨e, name, -, hlocal⟩ := Head.exists_local?_of_resolve ho
    exact hs.noneOnto e name _ hlocal
  mask _ := trivial
  scope _ _ := trivial
  spliced hs htop _ _ := ⟨settled_spliced hs.settled _ _ _, offersData_spliced hs.offers htop _ _,
    noneOnto_spliced hs.noneOnto _ _ _⟩

end State

/-! ## During a use -/

/-- The use has no overscope and no data that puts the mask under another one: the top frame of
a `~` call is another frame, and so is that of a mask that is used as data, and of the overrides
that data binds. -/
def Use.SparesMask (h : Heap) (mask : EnvId) : Use → Prop
  | .request (.evalTilde _ _ top) => top ≠ mask
  | .request _ => True
  | .evalWithData code data env => (code.scopeOr env).index < h.size ∧
      (∀ other, data = .env other → h.local? other .topEnv ≠ some (.env mask)) ∧
      ∀ name o, h.DataBinds data name (.override o) → o.top ≠ mask

namespace State.StandsOver

variable {s t : State} {mask bottom : EnvId} {source : DataSource}

/-- Where a use starts, the data is offered. -/
theorem starts (hs : s.StandsOver mask bottom source) (hheld : mask ∈ s.held) {u : Use}
    (hu : u.SparesMask s.heap mask) (ht : u.Starts s t) : t.StandsOver mask bottom source := by
  have hmask : mask.index < s.heap.size :=
    Heap.index_lt_size (Heap.isLive_of_parent? hs.offers.link)
  cases ht with
  | request => exact hs
  | @pointed code env other top hm htop hoff =>
    have hne : top ≠ mask := by
      rintro rfl
      exact hu.2.1 other rfl htop
    refine ⟨Heap.settled_sweep _ _, (hs.offers.pointAt hne _).sweep hheld, ?_⟩
    intro e name o ho
    have hpointed := Heap.local?_of_sweep ho
    rw [Heap.local?_pointAt] at hpointed
    split at hpointed
    · cases hpointed
    · exact hs.noneOnto e name o hpointed
  | withoutData =>
    have hold := s.heap.frame?_addQuosureMask_of_old
    refine ⟨(Heap.growsByMask_addQuosureMask hu.1).settled hs.settled,
      hs.offers.of_old (hold _), hs.noneOnto.of_old (hold _) ?_⟩
    intro e he name o ho
    rcases Heap.local?_addQuosureMask he ho with ⟨-, hv⟩ | ⟨-, hv⟩
    · cases hv
    · cases hv
      rintro rfl
      exact Nat.lt_irrefl _ hmask
  | ofData hb =>
    have hgrows := Heap.growsByMask_maskOf hu.1 hb
    obtain ⟨rfl, hfresh⟩ := Heap.freshMask_maskOf hb
    refine ⟨hgrows.settled hs.settled, hs.offers.of_old hfresh.old,
      hs.noneOnto.of_old hfresh.old ?_⟩
    intro e he name o ho
    have hlive := Heap.isLive_of_local? ho
    rcases Heap.eq_newBottom_or_newMask hfresh.size he hlive with rfl | rfl
    · rcases hfresh.binds_bottom ho with ⟨-, _, _, hpronoun⟩ | hbound
      · cases hpronoun
      · exact hu.2.2 name o hbound
    · rw [hfresh.local?_mask] at ho
      obtain rfl := override_of_maskBindings ho
      rintro rfl
      exact absurd hmask (Nat.not_lt.2 s.heap.size_le_newBottom)

end State.StandsOver

/-- Wherever something is evaluated in or beside the mask, `.data` reads the data. -/
structure State.ReadsDataThroughout (s : State) (mask bottom : EnvId) (source : DataSource) :
    Prop where
  /-- Inside of any nesting of quosures, whatever their scopes bind. -/
  inside : ∀ t, s.Inside mask bottom t → t.ReadsData mask source
  /-- At each evaluation that is started, as long as the mask goes on in its frame of data. -/
  request : ∀ (mode : Mode) (r : Request), ∀ v ∈ (r.trace mode).visits s,
    v.state.heap.Link mask bottom → v.state.ReadsData mask source
  /-- It does so all the time, unless the mask frame is itself the top frame of an overscope. -/
  use : mask ∈ s.held → s.heap.NoneOnto mask → ∀ (mode : Mode) (u : Use),
    u.SparesMask s.heap mask → ∀ v ∈ (u.trace mode).visits s, v.state.ReadsData mask source

/-- A mask for a list, a data frame or an environment whose parent and whose `.data` were not
written since it was built. -/
theorem readsData_throughout {h h' : Heap} {data : Value} {source : DataSource}
    {parent mask : EnvId} {s : State} (hsource : data.dataSource? = some source)
    (hbuilt : h.maskOf data parent = .ok (mask, h'))
    (hkept : h'.KeepsData mask h.newBottom s.heap) (hset : s.heap.Settled s.held) :
    s.ReadsDataThroughout mask h.newBottom source := by
  have hoffers := (Heap.offersData_of_maskOf hsource hbuilt).keeps hkept
  have hne : h.newBottom ≠ mask := by
    rw [(Heap.freshMask_maskOf hbuilt).1]
    exact h.newMask_ne_newBottom.symm
  refine ⟨?_, ?_, ?_⟩
  · intro t ht
    exact State.readsData_of_offersData (State.offersData_of_inside hoffers hne ht)
  · intro mode r v hv hlink
    have hstart : ∀ t, (Use.request r).Starts s t →
        t.HasPronoun mask h.newBottom source := by
      intro t ht
      cases ht with
      | request => exact ⟨hset, hoffers.toBindsPronoun⟩
    have hbinds := (State.preserved_hasPronoun mask h.newBottom source).visits_use hstart
      (fun _ _ _ _ => trivial) v hv
    exact State.readsData_of_offersData ⟨hbinds.binds, hlink⟩
  · intro hheld hnone mode u hu v hv
    have hs : s.StandsOver mask h.newBottom source := ⟨hset, hoffers, hnone⟩
    have hstands := (State.preserved_standsOver mask h.newBottom source).visits_use
      (fun t ht => hs.starts hheld hu ht) (fun _ _ _ heq => by rw [heq] at hu; exact hu) v hv
    exact State.readsData_of_offersData hstands.offers

/-- The frame ⟨2⟩ binds `.data` itself. -/
def Heap.sampleShadow : Heap :=
  (Heap.initial.alloc (.empty (some .base))).2.bind ⟨2⟩ .data (.str "shadow")

/-- A mask ⟨4⟩ for `x = 1`, over the frame ⟨3⟩ inside of the global environment. -/
def State.sampleShadow : State :=
  { State.initial with
    interner := Interner.initial.internAll ["x"]
    heap := match Heap.sampleShadow.maskOf .sampleData .global with
      | .ok (_, h) => h
      | .error _ => .initial
    held := [.base, .global, ⟨2⟩, ⟨4⟩] }

/-- A quosure of the global environment around `.data$x` as a quosure of the frame ⟨2⟩. -/
def Formula.sampleShadow : Formula :=
  .quosure (.const (Formula.quosure (Expr.ofData (.symbol Primitive.member.name)
    (.symbol ⟨12⟩)) (some ⟨2⟩)).toValue) (some .global)

/-- In the frame ⟨2⟩ `.data` is a text. In the mask it is the pronoun all the same, also where
that frame is the scope in force. -/
theorem readsData_throughout_sampleShadow :
    let source : DataSource := .list .plain (.ofList [⟨some ⟨12⟩, .int 1⟩])
    let use := Use.request (.evalTilde Formula.sampleShadow.toValue ⟨4⟩ ⟨3⟩)
    Value.sampleData.dataSource? = some source ∧
      State.sampleShadow.heap.Settled State.sampleShadow.held ∧
      State.sampleShadow.heap.NoneOnto ⟨4⟩ ∧
      (State.sampleShadow.heap.resolve? ⟨2⟩ .data).map (· == .str "shadow") = some true ∧
      (((use.trace .unlimited).visits .sampleShadow).map fun v => v.state.heap.parent? ⟨3⟩) =
        [some .global, some ⟨2⟩, some ⟨2⟩] ∧
      (∀ v ∈ (use.trace .unlimited).visits .sampleShadow, v.state.ReadsData ⟨4⟩ source) ∧
      ((use.run .unlimited .sampleShadow).1.toOption.map (· == .int 1)) = some true := by
  intro source use
  have hset : State.sampleShadow.heap.Settled State.sampleShadow.held := by decide +kernel
  have hbuilt : Heap.sampleShadow.maskOf .sampleData .global =
      .ok (⟨4⟩, State.sampleShadow.heap) := rfl
  have hsource : Value.sampleData.dataSource? = some source := rfl
  have hreads := readsData_throughout hsource hbuilt ⟨rfl, rfl, rfl⟩ hset
  have hnone : State.sampleShadow.heap.NoneOnto ⟨4⟩ := by decide +kernel
  have hspares : use.SparesMask State.sampleShadow.heap ⟨4⟩ := by
    show (⟨3⟩ : EnvId) ≠ ⟨4⟩
    decide
  refine ⟨hsource, hset, hnone, by decide +kernel, by decide +kernel, ?_, by decide +kernel⟩
  exact hreads.use (by decide) hnone .unlimited use hspares

end Overscope
