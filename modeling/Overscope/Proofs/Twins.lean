-- Two overscopes in one scope: the one without data, which is its own top frame, and the mask
-- of an empty list, over a frame of data. What is in force around them is the same, and what
-- they bind themselves is nothing that code without the names of a mask can tell apart.
import Overscope.Proofs.InForce
import Overscope.Proofs.Isolation
import Overscope.Proofs.Steady

namespace Overscope

variable {α β γ δ : Type} {n : Nat}

/-! ## Outcomes that agree -/

/-- The same failure, or results that are related. -/
inductive UpTo (R : α → β → Prop) : Except EvalError α → Except EvalError β → Prop
  | ok {a : α} {b : β} : R a b → UpTo R (.ok a) (.ok b)
  | error (err : EvalError) : UpTo R (.error err) (.error err)

/-- From any memory the two steps have outcomes that agree, and learn the same. -/
def Agree (R : α → β → Prop) (x : ViewM α) (y : ViewM β) : Prop :=
  ∀ m : Memo, UpTo R (x m).1 (y m).1 ∧ (x m).2 = (y m).2

theorem agree_pure {R : α → β → Prop} {a : α} {b : β} (h : R a b) :
    Agree R (pure a : ViewM α) (pure b : ViewM β) := fun _ => ⟨.ok h, rfl⟩

theorem agree_fail (R : α → β → Prop) (err : EvalError) :
    Agree R (.fail err : ViewM α) (.fail err : ViewM β) := fun _ => ⟨.error err, rfl⟩

/-- One step agrees with itself where each of its results is related to itself. -/
theorem agree_self {R : α → α → Prop} {x : ViewM α} (h : ∀ m a, (x m).1 = .ok a → R a a) :
    Agree R x x := by
  intro m
  refine ⟨?_, rfl⟩
  rcases hx : (x m).1 with err | a
  · exact .error err
  · exact .ok (h m a hx)

theorem agree_bind {R : α → β → Prop} {S : γ → δ → Prop} {x : ViewM α} {y : ViewM β}
    {f : α → ViewM γ} {g : β → ViewM δ} (hxy : Agree R x y)
    (hfg : ∀ a b, R a b → Agree S (f a) (g b)) : Agree S (x >>= f) (y >>= g) := by
  intro m
  obtain ⟨hout, hmemo⟩ := hxy m
  rw [Attempt.bind_run, Attempt.bind_run]
  rcases hx : x m with ⟨r, m'⟩
  rcases hy : y m with ⟨r', m''⟩
  rw [hx, hy] at hout hmemo
  simp only at hout hmemo
  subst hmemo
  cases hout with
  | ok hab => exact hfg _ _ hab m'
  | error err => exact ⟨.error err, rfl⟩

theorem agree_deeper {R : α → β → Prop} {x : Option Allowance → ViewM α}
    {y : Option Allowance → ViewM β} (h : ∀ d, Agree R (x d) (y d)) (d : Option Allowance) :
    Agree R (deeper d x) (deeper d y) := by
  rcases d with _ | ⟨limit, _ | left⟩
  · exact h none
  · exact agree_fail R _
  · exact h (some ⟨limit, left⟩)

/-! ## Values of the two evaluations -/

/-- The value holds no frames but the first `n`. -/
def Value.Made (n : Nat) (u : Value) : Prop := ∀ x ∈ u.handles, x.index < n

/-- The same value, or what has one overscope in it for the other: a formula that was made
there, or what `~` means there. -/
inductive Value.Twin (n : Nat) : Value → Value → Prop
  | same {u : Value} : u.Made n → Twin n u u
  | formula (head : Head) (args : Args) :
    Twin n (.formula head args (some ⟨n⟩) .plain) (.formula head args (some ⟨n + 1⟩) .plain)
  | override : Twin n (.override ⟨⟨n⟩, ⟨n⟩⟩) (.override ⟨⟨n + 1⟩, ⟨n⟩⟩)

namespace Value.Twin

variable {u u' : Value}

theorem negate (h : Twin n u u') : u.negate = u'.negate := by
  cases h <;> rfl

end Value.Twin

namespace Operator

variable {op : Operator}

theorem between_twin {l l' r r' : Value} (hl : Value.Twin n l l') (hr : Value.Twin n r r') :
    op.between l r = op.between l' r' := by
  cases hl with
  | same =>
    cases hr with
    | same => rfl
    | _ => cases l <;> rfl
  | _ => rfl

/-- Arithmetic does not tell twins apart. -/
theorem apply_twin {us us' : List Value} (h : List.Forall₂ (Value.Twin n) us us') :
    op.apply us = op.apply us' := by
  cases h with
  | nil => rfl
  | cons hu hrest =>
    cases hrest with
    | nil =>
      cases op with
      | add =>
        cases hu <;> rfl
      | sub => exact hu.negate
      | _ => rfl
    | cons hu' hrest =>
      cases hrest with
      | nil => exact between_twin hu hu'
      | cons _ hrest =>
        simp only [Operator.apply, List.length_cons, hrest.length_eq]

end Operator

/-! ## Twin views -/

/-- The names that a mask binds, but for `~`. -/
def reservedNames : List Name := [.env, .topEnv, .data, .maskFlag]

namespace View

variable {home cur : EnvId} {v w : View}

/-- The first `n` frames, which lead and hold to the first `n` frames alone, look the same. -/
structure Shared (n : Nat) (v w : View) : Prop where
  parent : ∀ e, e.index < n → v.parent? e = w.parent? e
  binding : ∀ e name, e.index < n → v.local? e name = w.local? e name
  closed : ∀ e p, e.index < n → v.parent? e = some p → p.index < n
  made : ∀ e name u, e.index < n → v.local? e name = some u → u.Made n
  onlyTilde : ∀ e name u, e.index < n → v.local? e name = some u → u.isOverride → name = .tilde

/-- Above the first `n` frames the one view has an overscope without data, and the other one a
mask without data, both with the scope `cur` in force. A quosure without an environment goes on
in `home` in the overscope, and in `cur` in the mask. -/
structure Twins (n : Nat) (home cur : EnvId) (v w : View) : Prop where
  shared : Shared n v w
  size : w.size = v.size + 1
  home_lt : home.index < n
  cur_lt : cur.index < n
  liveBare : v.isLive ⟨n⟩
  liveMask : w.isLive ⟨n + 1⟩
  liveBottom : w.isLive ⟨n⟩
  bare : v.parent? ⟨n⟩ = some cur
  mask : w.parent? ⟨n + 1⟩ = some ⟨n⟩
  bottom : w.parent? ⟨n⟩ = some cur
  bareBinds : ∀ name, v.local? ⟨n⟩ name = (quosureMaskBindings ⟨n⟩ home).get? name
  maskBinds : ∀ name, w.local? ⟨n + 1⟩ name = (maskBindings ⟨n + 1⟩ ⟨n⟩ cur).get? name
  bottomBinds : ∀ name u, w.local? ⟨n⟩ name = some u → name = .data ∧ u.isCallable = false

/-! ### Walks -/

/-- A walk from one of the first frames stays there, and is the same in both views. -/
theorem Shared.chainUpTo (h : Shared n v w) (k : Nat) {e : EnvId} (he : e.index < n) :
    v.chainUpTo k e = w.chainUpTo k e ∧ ∀ x ∈ v.chainUpTo k e, x.index < n := by
  induction k generalizing e with
  | zero => exact ⟨rfl, List.forall_mem_nil _⟩
  | succ k ih =>
    rw [View.chainUpTo, View.chainUpTo, ← h.parent e he]
    rcases hp : v.parent? e with _ | p
    · refine ⟨rfl, ?_⟩
      intro x hx
      rw [List.mem_singleton.1 hx]
      exact he
    · obtain ⟨heq, hall⟩ := ih (h.closed e p he hp)
      simp only [Option.map_some, Option.getD_some, heq, List.forall_mem_cons, true_and]
      rw [← heq]
      exact ⟨he, hall⟩

/-- A walk through the first frames finds the same in both views. -/
theorem Shared.findSome?_eq (h : Shared n v w) {es : List EnvId} (hes : ∀ e ∈ es, e.index < n)
    (name : Name) (accept : Value → Bool) :
    es.findSome? (fun e => (v.local? e name).filter accept) =
      es.findSome? fun e => (w.local? e name).filter accept := by
  induction es with
  | nil => rfl
  | cons e es ih =>
    rw [List.forall_mem_cons] at hes
    rw [List.findSome?_cons, List.findSome?_cons, h.binding e name hes.1, ih hes.2]

/-- What is above the first frames is on no chain of theirs. -/
theorem Shared.not_hasAncestor (h : Shared n v w) {target : EnvId} (ht : target.index < n) :
    v.hasAncestor target ⟨n⟩ = false ∧ w.hasAncestor target ⟨n⟩ = false := by
  have hout : ∀ k, (⟨n⟩ : EnvId) ∉ v.chainUpTo k target := fun k hin =>
    Nat.lt_irrefl n ((h.chainUpTo k ht).2 _ hin)
  constructor
  · rw [Bool.eq_false_iff, ne_eq, hasAncestor, List.contains_iff_mem]
    exact hout _
  · rw [Bool.eq_false_iff, ne_eq, hasAncestor, List.contains_iff_mem, chain,
      ← (h.chainUpTo _ ht).1]
    exact hout _

namespace Twins

theorem chain_bare (h : Twins n home cur v w) : v.chain ⟨n⟩ = ⟨n⟩ :: v.chainUpTo v.size cur := by
  rw [chain, View.chainUpTo, h.bare]
  rfl

theorem chain_mask (h : Twins n home cur v w) :
    w.chain ⟨n + 1⟩ = ⟨n + 1⟩ :: ⟨n⟩ :: v.chainUpTo v.size cur := by
  rw [chain, h.size, View.chainUpTo, h.mask, Option.map_some, Option.getD_some, View.chainUpTo,
    h.bottom, Option.map_some, Option.getD_some, (h.shared.chainUpTo v.size h.cur_lt).1]

/-- A name means the same in both, where nothing that the two bind to it is accepted. -/
theorem resolveWhere?_eq (h : Twins n home cur v w) {name : Name} {accept : Value → Bool}
    (hbare : ∀ u, (quosureMaskBindings ⟨n⟩ home).get? name = some u → accept u = false)
    (hmask : ∀ u, (maskBindings ⟨n + 1⟩ ⟨n⟩ cur).get? name = some u → accept u = false)
    (hbottom : ∀ u, w.local? ⟨n⟩ name = some u → accept u = false) :
    v.resolveWhere? ⟨n⟩ name accept = w.resolveWhere? ⟨n + 1⟩ name accept := by
  have hnone : ∀ found : Option Value, (∀ u, found = some u → accept u = false) →
      found.filter accept = none := by
    intro found hfound
    rw [Option.filter_eq_none_iff]
    intro u hu
    rw [hfound u hu]
    decide
  have hwalk := (h.shared.chainUpTo v.size h.cur_lt).2
  rw [resolveWhere?, resolveWhere?, h.chain_bare, h.chain_mask, List.findSome?_cons,
    List.findSome?_cons, List.findSome?_cons, h.bareBinds, h.maskBinds, hnone _ hbare,
    hnone _ hmask, hnone _ hbottom]
  exact h.shared.findSome?_eq hwalk name accept

/-- What a walk finds above the overscope is bound in one of the first frames. -/
theorem bound_of_resolveWhere? (h : Twins n home cur v w) {name : Name} {accept : Value → Bool}
    (hbare : ∀ u, (quosureMaskBindings ⟨n⟩ home).get? name = some u → accept u = false) {u : Value}
    (hu : v.resolveWhere? ⟨n⟩ name accept = some u) :
    accept u ∧ ∃ e, e.index < n ∧ v.local? e name = some u := by
  obtain ⟨e, he, hfound⟩ := List.exists_of_findSome?_eq_some hu
  obtain ⟨hlocal, haccept⟩ := Option.filter_eq_some_iff.1 hfound
  refine ⟨haccept, e, ?_, hlocal⟩
  rw [h.chain_bare] at he
  rcases List.mem_cons.1 he with rfl | he
  · rw [h.bareBinds] at hlocal
    rw [hbare u hlocal] at haccept
    cases haccept
  · exact (h.shared.chainUpTo v.size h.cur_lt).2 e he

/-! ### Names -/

/-- A symbol that is no name of a mask means the same, and it is bound in one of the first
frames. -/
theorem resolve?_eq (h : Twins n home cur v w) {name : Name} (hname : name ∉ reservedNames)
    (htilde : name ≠ .tilde) :
    v.resolve? ⟨n⟩ name = w.resolve? ⟨n + 1⟩ name ∧
      ∀ u, v.resolve? ⟨n⟩ name = some u → u.Made n := by
  simp only [reservedNames, List.mem_cons, List.not_mem_nil, or_false, not_or] at hname
  obtain ⟨henv, htop, hdata, hflag⟩ := hname
  have hbare : ∀ u, (quosureMaskBindings ⟨n⟩ home).get? name = some u → true = false := by
    intro u hu
    rcases eq_of_quosureMaskBindings hu with ⟨hn, -⟩ | ⟨hn, -⟩
    · exact absurd hn henv
    · exact absurd hn htilde
  have hmask : ∀ u, (maskBindings ⟨n + 1⟩ ⟨n⟩ cur).get? name = some u → true = false := by
    intro u hu
    rcases eq_of_maskBindings hu with ⟨hn, -⟩ | ⟨hn, -⟩ | ⟨hn, -⟩ | ⟨hn, -⟩
    · exact absurd hn htop
    · exact absurd hn henv
    · exact absurd hn hflag
    · exact absurd hn htilde
  constructor
  · exact h.resolveWhere?_eq hbare hmask fun u hu => absurd (h.bottomBinds name u hu).1 hdata
  · intro u hu
    obtain ⟨-, e, he, hlocal⟩ := h.bound_of_resolveWhere? hbare hu
    exact h.shared.made e name u he hlocal

/-- And `~` means the two overrides. -/
theorem resolve?_twin (h : Twins n home cur v w) {name : Name} (hname : name ∉ reservedNames) :
    Option.Rel (Value.Twin n) (v.resolve? ⟨n⟩ name) (w.resolve? ⟨n + 1⟩ name) := by
  by_cases htilde : name = .tilde
  · subst htilde
    have hv : v.resolve? ⟨n⟩ .tilde = some (.override ⟨⟨n⟩, ⟨n⟩⟩) := by
      rw [resolve?, resolveWhere?, h.chain_bare, List.findSome?_cons, h.bareBinds]
      rfl
    have hw : w.resolve? ⟨n + 1⟩ .tilde = some (.override ⟨⟨n + 1⟩, ⟨n⟩⟩) := by
      rw [resolve?, resolveWhere?, h.chain_mask, List.findSome?_cons, h.maskBinds]
      rfl
    rw [hv, hw]
    exact .some .override
  · obtain ⟨heq, hfound⟩ := h.resolve?_eq hname htilde
    rw [← heq]
    rcases hu : v.resolve? ⟨n⟩ name with _ | u
    · exact .none
    · exact .some (.same (hfound u hu))

/-- No head but `~` is overridden. It stands for the same operator, or for nothing. -/
theorem resolveIn_eq (h : Twins n home cur v w) {name : Name} (hname : name ≠ .tilde) :
    (Head.symbol name).resolveIn v ⟨n⟩ = (Head.symbol name).resolveIn w ⟨n + 1⟩ ∧
      ((∃ p, (Head.symbol name).resolveIn v ⟨n⟩ = pure (.builtin p)) ∨
        (Head.symbol name).resolveIn v ⟨n⟩ =
          (do .fail (.undefinedFunction (← textOf name)) : ViewM Callable)) := by
  have hbare : ∀ u, (quosureMaskBindings ⟨n⟩ home).get? name = some u → u.isCallable = false := by
    intro u hu
    rw [Bool.eq_false_iff]
    exact fun hc => hname (eq_tilde_of_quosureMaskBindings hu hc)
  have heq := h.resolveWhere?_eq hbare
    (fun u hu => Bool.eq_false_iff.2 fun hc => hname (eq_tilde_of_maskBindings hu hc))
    fun u hu => (h.bottomBinds name u hu).2
  unfold Head.resolveIn
  simp only [← heq]
  refine ⟨trivial, ?_⟩
  rcases hu : v.resolveWhere? ⟨n⟩ name Value.isCallable with _ | u
  · exact Or.inr rfl
  · obtain ⟨hc, e, he, hlocal⟩ := h.bound_of_resolveWhere? hbare hu
    cases u with
    | builtin p => exact Or.inl ⟨p, rfl⟩
    | override t => exact absurd (h.shared.onlyTilde e name _ he hlocal rfl) hname
    | _ => cases hc

/-! ### Splices -/

/-- Both overscopes are what quosures ask of them. -/
theorem intact (h : Twins n home cur v w) : v.Intact ⟨n⟩ ⟨n⟩ ∧ w.Intact ⟨n + 1⟩ ⟨n⟩ := by
  constructor
  · refine ⟨⟨?_, ⟨h.liveBare, h.liveBare⟩⟩, ?_⟩
    · rw [h.bareBinds]
      rfl
    · rw [hasAncestor, List.contains_iff_mem, h.chain_bare]
      exact List.mem_cons_self ..
  · refine ⟨⟨?_, ⟨h.liveMask, h.liveBottom⟩⟩, ?_⟩
    · rw [h.maskBinds]
      rfl
    · rw [hasAncestor, List.contains_iff_mem, h.chain_mask]
      exact List.mem_cons_of_mem _ (List.mem_cons_self ..)

theorem local?_splice_bare (h : Twins n home cur v w) (target e : EnvId) (name : Name) :
    (v.splice ⟨n⟩ ⟨n⟩ target).local? e name = v.local? e name := by
  have hbare : v.isMask ⟨n⟩ = false := by
    rw [isMask, h.bareBinds]
    rfl
  rw [local?_splice, hbare, if_neg fun hc => Bool.false_ne_true hc.1]

theorem local?_splice_mask (h : Twins n home cur v w) (target e : EnvId) (name : Name) :
    (w.splice ⟨n + 1⟩ ⟨n⟩ target).local? e name =
      if e = ⟨n + 1⟩ ∧ name = .env then some (.env target) else w.local? e name := by
  have hmask : w.isMask ⟨n + 1⟩ = true := by
    rw [isMask, h.maskBinds]
    rfl
  rw [local?_splice]
  by_cases hc : e = ⟨n + 1⟩ ∧ name = .env
  · obtain ⟨rfl, rfl⟩ := hc
    rw [if_pos ⟨hmask, rfl, h.liveMask, rfl⟩, if_pos ⟨rfl, rfl⟩]
  · rw [if_neg fun hs => hc ⟨hs.2.1.symm, hs.2.2.2.symm⟩, if_neg hc]

/-- Inside of a quosure the scope in force is that of the quosure, in both. The `.env` of the
mask names it too, and that of the overscope does not change. -/
theorem splice (h : Twins n home cur v w) {target : EnvId} (ht : target.index < n) :
    Twins n home target (v.splice ⟨n⟩ ⟨n⟩ target) (w.splice ⟨n + 1⟩ ⟨n⟩ target) := by
  have hne : ∀ {e : EnvId}, e.index < n → (⟨n⟩ : EnvId) ≠ e ∧ e ≠ ⟨n + 1⟩ := by
    intro e he
    constructor
    · rintro rfl
      exact Nat.lt_irrefl n he
    · rintro rfl
      exact Nat.not_succ_lt_self he
  have hparent : ∀ (u : View) (o e : EnvId), e.index < n →
      (u.splice o ⟨n⟩ target).parent? e = u.parent? e := fun u o e he => by
    rw [parent?_splice, if_neg fun hc => (hne he).1 hc.1]
  have hbinding : ∀ e name, e.index < n →
      (w.splice ⟨n + 1⟩ ⟨n⟩ target).local? e name = w.local? e name := fun e name he => by
    rw [h.local?_splice_mask, if_neg fun hc => (hne he).2 hc.1]
  refine ⟨⟨?_, ?_, ?_, ?_, ?_⟩, ?_, h.home_lt, ht, ?_, ?_, ?_, ?_, ?_, ?_, ?_, ?_, ?_⟩
  · intro e he
    rw [hparent v _ e he, hparent w _ e he, h.shared.parent e he]
  · intro e name he
    rw [h.local?_splice_bare, hbinding e name he, h.shared.binding e name he]
  · intro e p he hp
    rw [hparent v _ e he] at hp
    exact h.shared.closed e p he hp
  · intro e name u he hu
    rw [h.local?_splice_bare] at hu
    exact h.shared.made e name u he hu
  · intro e name u he hu
    rw [h.local?_splice_bare] at hu
    exact h.shared.onlyTilde e name u he hu
  · rw [size_splice, size_splice, h.size]
  · rw [isLive_splice, h.liveBare]
  · rw [isLive_splice, h.liveMask]
  · rw [isLive_splice, h.liveBottom]
  · rw [parent?_splice, if_pos ⟨rfl, h.liveBare⟩]
  · rw [parent?_splice, if_neg, h.mask]
    intro hc
    exact absurd (EnvId.mk.inj hc.1) (Nat.ne_of_lt (Nat.lt_succ_self n))
  · rw [parent?_splice, if_pos ⟨rfl, h.liveBottom⟩]
  · intro name
    rw [h.local?_splice_bare, h.bareBinds]
  · intro name
    rw [h.local?_splice_mask, h.maskBinds]
    by_cases henv : name = .env
    · subst henv
      rw [if_pos ⟨rfl, rfl⟩]
      rfl
    · rw [if_neg fun hc => henv hc.2]
      simp only [maskBindings, Table.get?_insert, if_neg (Ne.symm henv)]
  · intro name u hu
    rw [h.local?_splice_mask, if_neg] at hu
    · exact h.bottomBinds name u hu
    · intro hc
      exact absurd (EnvId.mk.inj hc.1) (Nat.ne_of_lt (Nat.lt_succ_self n))

end Twins

end View

end Overscope
