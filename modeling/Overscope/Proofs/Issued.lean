-- Names that an interner has issued. A lawful interner gives each text one name, and
-- code whose names are all issued already means the same however many texts get names
-- after that.
import Overscope.Mask.Eval
import Overscope.Proofs.PutBack

open Relation

namespace Overscope

/-! ## Lawful interners -/

namespace Interner

/-- The name of a text is the place where the text stands. -/
def Lawful (i : Interner) : Prop :=
  ∀ text n, i.names.get? text = some n ↔ i.texts[n.index]? = some text

theorem lawful_blank : blank.Lawful := fun text n => by simp [blank]

theorem lawful_intern {i : Interner} (hi : i.Lawful) (text : String) : (i.intern text).2.Lawful := by
  unfold intern
  rcases hnew : i.names.get? text with _ | n
  · rintro old ⟨k⟩
    have hlaw := hi old ⟨k⟩
    have hlt : i.texts[k]? = some old → k < i.texts.size := fun h =>
      (Array.getElem?_eq_some_iff.1 h).1
    simp only [Table.get?_insert, Array.getElem?_push]
    by_cases htext : text = old <;> by_cases hk : k = i.texts.size <;> grind
  · exact hi

theorem lawful_internAll {i : Interner} (hi : i.Lawful) (texts : List String) :
    (i.internAll texts).Lawful := by
  unfold internAll
  induction texts generalizing i with
  | nil => exact hi
  | cons text texts ih => exact ih (lawful_intern hi text)

theorem lawful_initial : initial.Lawful := lawful_internAll lawful_blank reserved

/-- A text has the name that it is given. -/
theorem get?_intern (i : Interner) (text : String) :
    (i.intern text).2.names.get? text = some (i.intern text).1 := by
  unfold intern
  rcases hold : i.names.get? text with _ | n
  · simp [Table.get?_insert]
  · exact hold

/-- The new name of a text stands for it. -/
theorem text_intern {i : Interner} (hi : i.Lawful) (text : String) :
    (i.intern text).2.text (i.intern text).1 = text := by
  rw [Interner.text, (lawful_intern hi text text _).1 (i.get?_intern text)]
  rfl

/-- A text that was seen before keeps its name. -/
theorem intern_of_texts {i : Interner} (hi : i.Lawful) {text : String} {n : Name}
    (hn : i.texts[n.index]? = some text) : i.intern text = (n, i) := by
  unfold intern
  rw [(hi text n).2 hn]

/-- A name that is not a new one is that of a text that was seen before. -/
theorem texts_of_intern {i : Interner} (hi : i.Lawful) {text : String}
    (hold : (i.intern text).1.index < i.size) :
    i.texts[(i.intern text).1.index]? = some text := by
  unfold intern at hold ⊢
  rcases hn : i.names.get? text with _ | n
  · rw [hn] at hold
    exact absurd hold (Nat.lt_irrefl _)
  · exact (hi text n).1 hn

/-- Two names that stand for one text are the same, unless they stand for none. -/
theorem eq_of_text {i : Interner} (hi : i.Lawful) {m n : Name} (hmn : i.text m = i.text n)
    (hne : i.text m ≠ "") : m = n := by
  have hissued : ∀ k : Name, i.text k ≠ "" → i.texts[k.index]? = some (i.text k) := by
    intro k hk
    rcases htext : i.texts[k.index]? with _ | text
    · rw [Interner.text, htext] at hk
      exact absurd rfl hk
    · rw [Interner.text, htext]
      rfl
  have hm := (hi _ m).2 (hissued m hne)
  have hn := (hi _ n).2 (hissued n (hmn ▸ hne))
  rw [← hmn, hm] at hn
  exact Option.some.inj hn

/-- Two lawful interners that issued the first `b` names alike. -/
structure AlikeBelow (b : Nat) (i j : Interner) : Prop where
  left : i.Lawful
  right : j.Lawful
  issued : b ≤ i.size ∧ b ≤ j.size
  texts : ∀ k, k < b → i.texts[k]? = j.texts[k]?

namespace AlikeBelow

variable {b : Nat} {i j : Interner}

theorem symm (h : AlikeBelow b i j) : AlikeBelow b j i :=
  ⟨h.right, h.left, h.issued.symm, fun k hk => (h.texts k hk).symm⟩

theorem text (h : AlikeBelow b i j) {n : Name} (hn : n.index < b) : i.text n = j.text n := by
  rw [Interner.text, h.texts _ hn, Interner.text]

theorem intern_left (h : AlikeBelow b i j) (text : String) : AlikeBelow b (i.intern text).2 j where
  left := lawful_intern h.left text
  right := h.right
  issued := by
    refine ⟨Nat.le_trans h.issued.1 ?_, h.issued.2⟩
    unfold intern
    rcases i.names.get? text with _ | n
    · simp [size]
    · exact Nat.le_refl _
  texts k hk := by
    have hlt : k < i.texts.size := Nat.lt_of_lt_of_le hk h.issued.1
    rw [← h.texts k hk]
    unfold intern
    rcases i.names.get? text with _ | n
    · rw [Array.getElem?_push, if_neg (Nat.ne_of_lt hlt)]
    · rfl

theorem name_eq (h : AlikeBelow b i j) {text : String} (hb : (i.intern text).1.index < b) :
    (j.intern text).1 = (i.intern text).1 := by
  have hold := texts_of_intern h.left (Nat.lt_of_lt_of_le hb h.issued.1)
  rw [h.texts _ hb] at hold
  rw [intern_of_texts h.right hold]

end AlikeBelow

end Interner

theorem Memo.lawful_of_gains {bound : Option Value} {m m' : Memo}
    (h : ReflTransGen (Memo.Gains bound) m m') (hm : m.interner.Lawful) : m'.interner.Lawful := by
  induction h with
  | refl => exact hm
  | tail _ hlast ih =>
    cases hlast with
    | text text => exact Interner.lawful_intern ih text
    | tilde _ _ => exact ih

/-! ## Code whose names are issued -/

/-- The name of a head is among the first `b`. -/
def Head.Issued (b : Nat) : Head → Prop
  | .symbol n => n.index < b
  | .inlined _ => True

mutual

/-- All names in an expression are among the first `b`. -/
def Expr.Issued (b : Nat) : Expr → Prop
  | .const v => v.Issued b
  | .symbol n => n.index < b
  | .call head args => head.Issued b ∧ args.Issued b
  | .missing => True
termination_by structural e => e

def Args.Issued (b : Nat) : Args → Prop
  | .nil => True
  | .cons e rest => e.Issued b ∧ rest.Issued b
termination_by structural args => args

def Value.Issued (b : Nat) : Value → Prop
  | .list _ entries => entries.Issued b
  | .code e => e.Issued b
  | .formula head args _ _ => head.Issued b ∧ args.Issued b
  | .pronoun source _ => source.Issued b
  | _ => True
termination_by structural v => v

def Entries.Issued (b : Nat) : Entries → Prop
  | .nil => True
  | .cons name v rest => (∀ n ∈ name, n.index < b) ∧ v.Issued b ∧ rest.Issued b
termination_by structural entries => entries

def DataSource.Issued (b : Nat) : DataSource → Prop
  | .list _ entries => entries.Issued b
  | .env _ => True
termination_by structural source => source

end

/-- Frames bind issued names to values whose names are issued. -/
def Heap.Issued (b : Nat) (h : Heap) : Prop :=
  ∀ e n v, h.local? e n = some v → n.index < b ∧ v.Issued b

instance (b : Nat) : ∀ head : Head, Decidable (head.Issued b)
  | .symbol n => inferInstanceAs (Decidable (n.index < b))
  | .inlined _ => inferInstanceAs (Decidable True)

mutual

/-- Whether all names are issued can be read off the code. -/
def Expr.decIssued (b : Nat) : ∀ e : Expr, Decidable (e.Issued b)
  | .const v => v.decIssued b
  | .symbol n => inferInstanceAs (Decidable (n.index < b))
  | .call head args =>
    have := args.decIssued b
    inferInstanceAs (Decidable (head.Issued b ∧ args.Issued b))
  | .missing => inferInstanceAs (Decidable True)
termination_by structural e => e

def Args.decIssued (b : Nat) : ∀ args : Args, Decidable (args.Issued b)
  | .nil => inferInstanceAs (Decidable True)
  | .cons e rest =>
    have := e.decIssued b
    have := rest.decIssued b
    inferInstanceAs (Decidable (e.Issued b ∧ rest.Issued b))
termination_by structural args => args

def Value.decIssued (b : Nat) : ∀ v : Value, Decidable (v.Issued b)
  | .list _ entries => entries.decIssued b
  | .code e => e.decIssued b
  | .formula head args _ _ =>
    have := args.decIssued b
    inferInstanceAs (Decidable (head.Issued b ∧ args.Issued b))
  | .pronoun source _ => source.decIssued b
  | .null | .missing | .bool _ | .int _ | .float _ | .str _ | .env _ | .builtin _ | .override _ =>
    inferInstanceAs (Decidable True)
termination_by structural v => v

def Entries.decIssued (b : Nat) : ∀ entries : Entries, Decidable (entries.Issued b)
  | .nil => inferInstanceAs (Decidable True)
  | .cons name v rest =>
    have := v.decIssued b
    have := rest.decIssued b
    inferInstanceAs (Decidable ((∀ n ∈ name, n.index < b) ∧ v.Issued b ∧ rest.Issued b))
termination_by structural entries => entries

def DataSource.decIssued (b : Nat) : ∀ source : DataSource, Decidable (source.Issued b)
  | .list _ entries => entries.decIssued b
  | .env _ => inferInstanceAs (Decidable True)
termination_by structural source => source

end

instance (b : Nat) (v : Value) : Decidable (v.Issued b) := v.decIssued b

theorem Heap.issued_iff {b : Nat} {h : Heap} :
    h.Issued b ↔ ∀ i < h.size, ∀ n ∈ (h.bindings ⟨i⟩).keys,
      ∀ v ∈ h.local? ⟨i⟩ n, n.index < b ∧ v.Issued b :=
  forall_local?_iff

instance (b : Nat) (h : Heap) : Decidable (h.Issued b) := decidable_of_iff' _ Heap.issued_iff

theorem Head.Issued.mono {b c : Nat} (hbc : b ≤ c) {head : Head} (h : head.Issued b) :
    head.Issued c := by
  cases head with
  | symbol n => exact Nat.lt_of_lt_of_le h hbc
  | inlined p => trivial

mutual

theorem Expr.Issued.mono {b c : Nat} (hbc : b ≤ c) : ∀ {e : Expr}, e.Issued b → e.Issued c
  | .const _, h => Value.Issued.mono hbc h
  | .symbol _, h => Nat.lt_of_lt_of_le h hbc
  | .call _ _, h => ⟨h.1.mono hbc, Args.Issued.mono hbc h.2⟩
  | .missing, _ => trivial

theorem Args.Issued.mono {b c : Nat} (hbc : b ≤ c) : ∀ {args : Args}, args.Issued b → args.Issued c
  | .nil, _ => trivial
  | .cons _ _, h => ⟨Expr.Issued.mono hbc h.1, Args.Issued.mono hbc h.2⟩

theorem Value.Issued.mono {b c : Nat} (hbc : b ≤ c) : ∀ {v : Value}, v.Issued b → v.Issued c
  | .list _ _, h => Entries.Issued.mono hbc h
  | .code _, h => Expr.Issued.mono hbc h
  | .formula _ _ _ _, h => ⟨h.1.mono hbc, Args.Issued.mono hbc h.2⟩
  | .pronoun _ _, h => DataSource.Issued.mono hbc h
  | .null, _ | .missing, _ | .bool _, _ | .int _, _ | .float _, _ | .str _, _ | .env _, _
  | .builtin _, _ | .override _, _ => trivial

theorem Entries.Issued.mono {b c : Nat} (hbc : b ≤ c) :
    ∀ {entries : Entries}, entries.Issued b → entries.Issued c
  | .nil, _ => trivial
  | .cons _ _ _, h => ⟨fun n hn => Nat.lt_of_lt_of_le (h.1 n hn) hbc, Value.Issued.mono hbc h.2.1,
      Entries.Issued.mono hbc h.2.2⟩

theorem DataSource.Issued.mono {b c : Nat} (hbc : b ≤ c) :
    ∀ {source : DataSource}, source.Issued b → source.Issued c
  | .list _ _, h => Entries.Issued.mono hbc h
  | .env _, _ => trivial

end

theorem Heap.Issued.mono {b c : Nat} (hbc : b ≤ c) {h : Heap} (hi : h.Issued b) : h.Issued c :=
  fun e n v hv => ⟨Nat.lt_of_lt_of_le (hi e n v hv).1 hbc, (hi e n v hv).2.mono hbc⟩

/-! ## Parts -/

theorem Args.issued_iff {b : Nat} (args : Args) :
    args.Issued b ↔ ∀ e ∈ args.toList, e.Issued b := by
  cases args with
  | nil => simp [Args.Issued, Args.toList]
  | cons e rest => simp [Args.Issued, Args.toList, rest.issued_iff]

theorem Entries.issued_iff {b : Nat} (entries : Entries) :
    entries.Issued b ↔
      ∀ e ∈ entries.toList, (∀ n ∈ e.name, n.index < b) ∧ e.value.Issued b := by
  cases entries with
  | nil => simp [Entries.Issued, Entries.toList]
  | cons name v rest =>
    simp only [Entries.Issued, Entries.toList, rest.issued_iff, List.forall_mem_cons, and_assoc]

theorem Entries.issued_get? {b : Nat} {entries : Entries} (h : entries.Issued b) {n : Name}
    {v : Value} (hv : entries.get? n = some v) : n.index < b ∧ v.Issued b := by
  obtain ⟨e, he, rfl⟩ := Option.map_eq_some_iff.1 hv
  obtain ⟨hname, hvalue⟩ := entries.issued_iff.1 h e (List.mem_of_find?_eq_some he)
  have hn : e.name = some n := by simpa using List.find?_some he
  exact ⟨hname n hn, hvalue⟩

/-- Data has an issued value under an issued name, or none. -/
theorem DataSource.issued_get? {b : Nat} {h : Heap} (hh : h.Issued b) {source : DataSource}
    (hs : source.Issued b) {n : Name} {v : Value} (hv : source.get? h n = some v) :
    n.index < b ∧ v.Issued b := by
  cases source with
  | list kind entries => exact Entries.issued_get? hs hv
  | env e => exact hh e n v hv

theorem Expr.Issued.quoted {b : Nat} {e : Expr} (h : e.Issued b) : e.quoted.Issued b := by
  cases e with
  | const v => exact h
  | _ => exact h

/-- What is evaluated for a value has no other names. -/
theorem Value.Issued.body {b : Nat} {v : Value} (h : v.Issued b) : v.body.Issued b := by
  unfold Value.body
  rcases hq : v.quosure? with _ | f
  · cases v with
    | code e => exact h
    | _ => exact h
  · have hv := Value.formula?_eq_some_iff.1 (Option.eq_some_of_filter_eq_some hq)
    rw [hv] at h
    show (f.rhs?.getD .missing).Issued b
    rcases hr : f.rhs? with _ | rhs
    · trivial
    · exact f.args.issued_iff.1 h.2 rhs (List.mem_of_getLast? hr)

/-! ## Scope graphs -/

namespace Heap

variable {b : Nat} {h : Heap}

theorem Issued.resolve? (hi : h.Issued b) {e : EnvId} {name : Name} {v : Value}
    (hv : h.resolve? e name = some v) : v.Issued b := by
  obtain ⟨f, -, hf⟩ := List.exists_of_findSome?_eq_some hv
  exact (hi f name v hf).2

theorem Issued.bind (hi : h.Issued b) (e : EnvId) {name : Name} (hn : name.index < b) {v : Value}
    (hv : v.Issued b) : (h.bind e name v).Issued b := by
  intro f n w hw
  rw [local?_bind] at hw
  split at hw
  · next hc =>
    cases hw
    exact ⟨hc.2.2 ▸ hn, hv⟩
  · exact hi f n w hw

theorem Issued.setParent (hi : h.Issued b) (e : EnvId) (p : Option EnvId) :
    (h.setParent e p).Issued b := by
  intro f n w hw
  rw [local?_setParent] at hw
  exact hi f n w hw

end Heap

end Overscope
