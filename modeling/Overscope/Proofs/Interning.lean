-- The interner over any run: calls of it, and evaluations, which intern the string members
-- of `$`. The table and the row of texts stay two views of one bijection that only grows,
-- so a name can stand for its text everywhere and for ever.
import Overscope.Proofs.MaskHistory

open Relation

namespace Overscope

namespace Interner

/-! ## A table and a later one -/

/-- What is known of an interner at any time: its table and its row of texts are inverse to
each other, and what a call does follows from the row alone. -/
structure Bijective (i : Interner) : Prop where
  inverse : ∀ text n, i.names.get? text = some n ↔ i.texts[n.index]? = some text
  text_intern : ∀ text, (i.intern text).2.text (i.intern text).1 = text
  intern_text : ∀ n, n.index < i.size → i.intern (i.text n) = (n, i)
  name_eq_iff : ∀ m n, m.index < i.size → n.index < i.size → (m = n ↔ i.text m = i.text n)
  /-- A text that was seen before has its name, and the table is left alone. -/
  seen : ∀ text ∈ i.texts, (i.intern text).2 = i ∧ i.text (i.intern text).1 = text
  /-- A new text gets the next index. -/
  fresh : ∀ text, text ∉ i.texts →
    (i.intern text).1 = ⟨i.size⟩ ∧ (i.intern text).2.texts = i.texts.push text
  unissued : ∀ n, i.size ≤ n.index → i.text n = ""
  /-- A call that may fail does the same, as long as there is a name left. -/
  tryIntern : ∀ text, text ∈ i.texts ∨ i.size < capacity →
    i.tryIntern text = (.ok (i.intern text).1, (i.intern text).2)
  /-- When there is none it fails, and leaves the table alone. -/
  full : ∀ text, text ∉ i.texts → capacity ≤ i.size →
    i.tryIntern text = (.error (.overflow i.size), i)

/-- What stays of an interner: an issued name keeps its index and its text, and a text its
name. A call that looked at the first table and goes on with the second one does what it
would have done, had it looked at the second one. -/
structure Before (i j : Interner) : Prop where
  size_le : i.size ≤ j.size
  text : ∀ n, n.index < i.size → j.text n = i.text n
  name : ∀ text n, i.names.get? text = some n →
    j.intern text = (n, j) ∧ j.tryIntern text = (.ok n, j)
  recheck : ∀ text, j.tryInternSince i text = j.tryIntern text

theorem mem_texts_iff {i : Interner} (hi : i.Lawful) {text : String} :
    text ∈ i.texts ↔ (i.names.get? text).isSome := by
  rw [Array.mem_iff_getElem?, Option.isSome_iff_exists]
  constructor
  · rintro ⟨k, hk⟩
    exact ⟨⟨k⟩, (hi text ⟨k⟩).2 hk⟩
  · rintro ⟨n, hn⟩
    exact ⟨n.index, (hi text n).1 hn⟩

theorem texts_of_lt {i : Interner} {n : Name} (hn : n.index < i.size) :
    i.texts[n.index]? = some (i.text n) := by
  have hlt : n.index < i.texts.size := hn
  rw [text, Array.getElem?_eq_getElem hlt]
  rfl

/-- The second look makes the first one a shortcut. -/
theorem tryIntern_eq_add (i : Interner) (text : String) : i.tryIntern text = i.add text := by
  unfold tryIntern tryInternSince add
  rcases i.names.get? text with _ | n <;> rfl

theorem add_of_room {i : Interner} (hi : i.Lawful) {text : String}
    (hroom : text ∈ i.texts ∨ i.size < capacity) :
    i.add text = (.ok (i.intern text).1, (i.intern text).2) := by
  unfold add intern
  rcases hn : i.names.get? text with _ | n
  · have hlt : i.texts.size < capacity := by
      rcases hroom with hseen | hlt
      · rw [mem_texts_iff hi, hn] at hseen
        cases hseen
      · exact hlt
    rw [if_pos hlt]
  · rfl

theorem bijective_of_lawful {i : Interner} (hi : i.Lawful) : i.Bijective where
  inverse := hi
  text_intern := text_intern hi
  intern_text n hn := intern_of_texts hi (texts_of_lt hn)
  name_eq_iff m n hm hn := by
    refine ⟨congrArg i.text, fun heq => ?_⟩
    have hname := (hi _ m).2 (texts_of_lt hm)
    rw [heq, (hi _ n).2 (texts_of_lt hn)] at hname
    exact (Option.some.inj hname).symm
  seen text htext := by
    obtain ⟨k, hk⟩ := Array.mem_iff_getElem?.1 htext
    have hold : i.intern text = (⟨k⟩, i) := intern_of_texts hi hk
    rw [hold]
    exact ⟨rfl, by rw [Interner.text, hk]; rfl⟩
  fresh text htext := by
    rw [mem_texts_iff hi, Option.not_isSome_iff_eq_none] at htext
    unfold intern
    rw [htext]
    exact ⟨rfl, rfl⟩
  unissued n hn := by
    rw [text, Array.getElem?_eq_none hn]
    rfl
  tryIntern text hroom := by rw [tryIntern_eq_add, add_of_room hi hroom]
  full text htext hfull := by
    rw [mem_texts_iff hi, Option.not_isSome_iff_eq_none] at htext
    rw [tryIntern_eq_add, add, htext]
    exact if_neg (Nat.not_lt.2 hfull)

theorem before_of_extends {i j : Interner} (hj : j.Lawful) (hext : i.Extends j) : i.Before j where
  size_le := by
    have hlen := hext.texts.length_le
    rwa [Array.length_toList, Array.length_toList] at hlen
  text n hn := hext.text_eq hn
  name text n hn := by
    have hold := hext.names text n hn
    have hrow := (hj text n).1 hold
    have hintern := intern_of_texts hj hrow
    refine ⟨hintern, ?_⟩
    have hseen : text ∈ j.texts := Array.mem_iff_getElem?.2 ⟨n.index, hrow⟩
    rw [tryIntern_eq_add, add_of_room hj (Or.inl hseen), hintern]
  recheck text := by
    rw [tryIntern_eq_add, tryInternSince]
    rcases hn : i.names.get? text with _ | n
    · rfl
    · unfold add
      rw [hext.names text n hn]

/-! ## Runs -/

theorem extends_internAll (i : Interner) (texts : List String) : i.Extends (i.internAll texts) := by
  unfold internAll
  induction texts generalizing i with
  | nil => exact i.extends_refl
  | cons text texts ih => exact (i.extends_intern text).trans (ih (i.intern text).2)

theorem internAll_append (i : Interner) (texts more : List String) :
    i.internAll (texts ++ more) = (i.internAll texts).internAll more :=
  List.foldl_append

/-- What can happen to an interner: a call of it, or the use of an interpreter, whatever
state that is in apart from the interner. -/
inductive Turn where
  | intern (text : String)
  | tryIntern (text : String)
  | use (mode : Mode) (u : Use) (s : State)

namespace Turn

def after (i : Interner) : Turn → Interner
  | .intern text => (i.intern text).2
  | .tryIntern text => (i.tryIntern text).2
  | .use mode u s => (u.run mode { s with interner := i }).2.interner

/-- The name that a call was given for its text. A use of an interpreter keeps the names of
string members for itself. -/
def issues (i : Interner) : Turn → Option (String × Name)
  | .intern text => some (text, (i.intern text).1)
  | .tryIntern text => (i.tryIntern text).1.toOption.map (text, ·)
  | .use _ _ _ => none

/-- An interpreter is used where every live frame has a holder, in an environment that was
made. -/
def Placed : Turn → Prop
  | .intern _ => True
  | .tryIntern _ => True
  | .use _ (.request _) s => s.heap.Settled s.held
  | .use _ (.evalWithData code _ env) s =>
    s.heap.Settled s.held ∧ (code.scopeOr env).index < s.heap.size

instance : ∀ t : Turn, Decidable t.Placed
  | .intern _ => inferInstanceAs (Decidable True)
  | .tryIntern _ => inferInstanceAs (Decidable True)
  | .use _ (.request _) s => inferInstanceAs (Decidable (s.heap.Settled s.held))
  | .use _ (.evalWithData code _ env) s =>
    inferInstanceAs (Decidable (s.heap.Settled s.held ∧ (code.scopeOr env).index < s.heap.size))

end Turn

/-- The interner after one turn after the other. -/
def afterTurns (i : Interner) (turns : List Turn) : Interner := turns.foldl Turn.after i

end Interner

/-! ## One turn -/

/-- To learn is to intern some texts. -/
theorem Memo.interner_of_gains {bound : Option Value} {m m' : Memo}
    (h : ReflTransGen (Memo.Gains bound) m m') :
    ∃ texts, m'.interner = m.interner.internAll texts := by
  induction h with
  | refl => exact ⟨[], rfl⟩
  | tail _ hlast ih =>
    obtain ⟨texts, hi⟩ := ih
    cases hlast with
    | text text =>
      refine ⟨texts ++ [text], ?_⟩
      rw [Interner.internAll_append, ← hi]
      rfl
    | tilde _ _ => exact ⟨texts, hi⟩

/-- So it is for what puts back all else. -/
theorem PutsBack.interner {α : Type} {x : EvalM α} (hx : PutsBack x) (s : State)
    (hs : s.heap.Settled s.held) : ∃ texts, (x s).2.interner = s.interner.internAll texts :=
  Memo.interner_of_gains (hx s hs).memo

theorem interner_inOwnMask {build : Heap → Except EvalError (EnvId × Heap)}
    {takeDown : Heap → EnvId → Heap} {body : EnvId → EvalM Value}
    (hbody : ∀ mask, PutsBack (body mask)) {s : State}
    (hbuilt : ∀ mask h, build s.heap = .ok (mask, h) → h.Settled (mask :: s.held)) :
    ∃ texts, (inOwnMask build takeDown body s).2.interner = s.interner.internAll texts := by
  unfold inOwnMask
  rcases hb : build s.heap with err | ⟨mask, h⟩
  · exact ⟨[], rfl⟩
  · exact (hbody mask).interner { s with heap := h, held := mask :: s.held } (hbuilt mask h hb)

theorem interner_evalWithData (mode : Mode) (code data : Value) {env : EnvId} (s : State)
    (hs : s.heap.Settled s.held) (hscope : (code.scopeOr env).index < s.heap.size) :
    ∃ texts, (evalWithData mode code data env s).2.interner = s.interner.internAll texts := by
  have hbody := code.body.putsBack_eval mode
  unfold evalWithData
  simp only [Attempt.bind_run, Attempt.read]
  rcases data.env?.filter s.heap.isMask with _ | mask
  · simp only
    unfold evalInOwnMask
    split
    · refine interner_inOwnMask hbody fun mask h hb => ?_
      cases hb
      exact (Heap.growsByMask_addQuosureMask hscope).settled hs
    · exact interner_inOwnMask hbody fun mask h hb =>
        (Heap.growsByMask_maskOf hscope hb).settled hs
  · simp only
    unfold evalInMask
    rcases pointMask_run mask (code.scopeOr env) s with ⟨err, hrun⟩ | ⟨top, -, -, hrun⟩
    · rw [Attempt.bind_run_error hrun]
      exact ⟨[], rfl⟩
    · rw [Attempt.bind_run_ok hrun]
      exact (hbody mask).interner _ (Heap.settled_sweep _ _)

namespace Interner

theorem Turn.after_eq (i : Interner) {t : Turn} (ht : t.Placed) :
    ∃ texts, t.after i = i.internAll texts := by
  cases t with
  | intern text => exact ⟨[text], rfl⟩
  | tryIntern text =>
    show ∃ texts, (i.tryIntern text).2 = _
    rw [tryIntern_eq_add]
    unfold add
    rcases hn : i.names.get? text with _ | n
    · simp only
      split
      · refine ⟨[text], ?_⟩
        simp only [internAll, List.foldl_cons, List.foldl_nil, Interner.intern, hn]
      · exact ⟨[], rfl⟩
    · exact ⟨[], rfl⟩
  | use mode u s =>
    cases u with
    | request r => exact (r.putsBack_run mode).interner { s with interner := i } ht
    | evalWithData code data env =>
      exact interner_evalWithData mode code data { s with interner := i } ht.1 ht.2

/-! ## Any number of turns -/

theorem afterTurns_eq (i : Interner) {turns : List Turn} (hturns : ∀ t ∈ turns, t.Placed) :
    ∃ texts, i.afterTurns turns = i.internAll texts := by
  induction turns generalizing i with
  | nil => exact ⟨[], rfl⟩
  | cons t turns ih =>
    obtain ⟨first, hfirst⟩ := Turn.after_eq i (hturns t (List.mem_cons_self ..))
    obtain ⟨rest, hrest⟩ := ih (t.after i) fun t' h => hturns t' (List.mem_cons_of_mem _ h)
    refine ⟨first ++ rest, ?_⟩
    rw [afterTurns, List.foldl_cons, ← afterTurns, hrest, hfirst, internAll_append]

theorem lawful_afterTurns {i : Interner} (hi : i.Lawful) {turns : List Turn}
    (hturns : ∀ t ∈ turns, t.Placed) : (i.afterTurns turns).Lawful := by
  obtain ⟨texts, heq⟩ := i.afterTurns_eq hturns
  rw [heq]
  exact lawful_internAll hi texts

theorem afterTurns_take_drop (i : Interner) (turns : List Turn) (k : Nat) :
    i.afterTurns turns = (i.afterTurns (turns.take k)).afterTurns (turns.drop k) := by
  rw [afterTurns, afterTurns, afterTurns, ← List.foldl_append, List.take_append_drop]

theorem Turn.get?_of_issues {i : Interner} {t : Turn} {text : String} {n : Name}
    (ht : t.issues i = some (text, n)) : (t.after i).names.get? text = some n := by
  cases t with
  | intern text' =>
    obtain ⟨rfl, rfl⟩ := Prod.mk.inj (Option.some.inj ht)
    exact i.get?_intern text'
  | tryIntern text' =>
    obtain ⟨n', hn', heq⟩ := Option.map_eq_some_iff.1 ht
    obtain ⟨rfl, rfl⟩ := Prod.mk.inj heq
    rw [tryIntern_eq_add] at hn'
    show (i.tryIntern text').2.names.get? text' = _
    rw [tryIntern_eq_add]
    unfold add at hn' ⊢
    rcases hold : i.names.get? text' with _ | old
    · rw [hold] at hn'
      simp only at hn' ⊢
      split at hn'
      · next hroom =>
        rw [if_pos hroom]
        cases hn'
        simp [Table.get?_insert]
      · cases hn'
    · rw [hold] at hn'
      cases hn'
      exact hold
  | use mode u s => cases ht

/-- After any run on a new interner its table and its row of texts are a bijection. It holds
all that it held at any time of the run, and a name that a call was given is the one that
every later call for that text is given. -/
theorem afterTurns_grows {turns : List Turn} (hturns : ∀ t ∈ turns, t.Placed) :
    (initial.afterTurns turns).Bijective ∧
    (∀ k, (initial.afterTurns (turns.take k)).Before (initial.afterTurns turns)) ∧
    ∀ (k : Nat) (t : Turn) text n, turns[k]? = some t →
      t.issues (initial.afterTurns (turns.take k)) = some (text, n) →
        (initial.afterTurns turns).intern text = (n, initial.afterTurns turns) := by
  have hend : (initial.afterTurns turns).Lawful := lawful_afterTurns lawful_initial hturns
  have hbefore : ∀ k, (initial.afterTurns (turns.take k)).Before (initial.afterTurns turns) := by
    intro k
    have hlater : ∀ t ∈ turns.drop k, t.Placed := fun t ht => hturns t (List.mem_of_mem_drop ht)
    obtain ⟨texts, heq⟩ := (initial.afterTurns (turns.take k)).afterTurns_eq hlater
    refine before_of_extends hend ?_
    rw [initial.afterTurns_take_drop turns k, heq]
    exact extends_internAll _ texts
  refine ⟨bijective_of_lawful hend, hbefore, fun k t text n hk ht => ?_⟩
  have hnext : initial.afterTurns (turns.take (k + 1)) =
      t.after (initial.afterTurns (turns.take k)) := by
    rw [List.take_add_one, hk, afterTurns, List.foldl_append]
    rfl
  refine ((hbefore (k + 1)).name text n ?_).1
  rw [hnext]
  exact Turn.get?_of_issues ht

/-- The text `u` from a caller, the text `v` as a member of an empty list, and both from a
caller that may fail. -/
def Turn.samples : List Turn :=
  [.intern "u",
    .use .unlimited (.request (.eval (.call (.symbol Primitive.member.name)
      (.cons (.const (.list .plain .nil)) (.cons (.const (.str "v")) .nil))) .global)) .initial,
    .tryIntern "v", .tryIntern "u"]

/-- The evaluation gives `v` the next name after that of `u`, and both calls are given the
names that the texts have. -/
theorem afterTurns_grows_samples :
    (∀ t ∈ Turn.samples, t.Placed) ∧
      (initial.afterTurns Turn.samples).texts.toList = reserved ++ ["u", "v"] ∧
      (initial.afterTurns Turn.samples).intern "u" = (⟨12⟩, initial.afterTurns Turn.samples) ∧
      (initial.afterTurns Turn.samples).intern "v" = (⟨13⟩, initial.afterTurns Turn.samples) ∧
      (initial.afterTurns Turn.samples).text ⟨14⟩ = "" := by
  have hplaced : ∀ t ∈ Turn.samples, t.Placed := by decide +kernel
  obtain ⟨hbij, -, hissued⟩ := afterTurns_grows hplaced
  refine ⟨hplaced, by decide +kernel, ?_, ?_, ?_⟩
  · exact hissued 0 (.intern "u") "u" ⟨12⟩ rfl (by decide +kernel)
  · exact hissued 2 (.tryIntern "v") "v" ⟨13⟩ rfl (by decide +kernel)
  · exact hbij.unissued ⟨14⟩ (by decide +kernel)

end Interner

end Overscope
