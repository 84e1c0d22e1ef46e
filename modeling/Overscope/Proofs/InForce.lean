-- A mask in force. While it is, no evaluation leaves it: what its quosures splice in above its
-- top frame are scopes that were there before, so the mask stays the innermost frame, its top
-- stays on its chain, and its override of `~` is what every `~` finds.
import Overscope.Proofs.Course
import Overscope.Proofs.FreshMask
import Overscope.Proofs.Issued

open Relation

namespace Overscope

/-! ## Overrides -/

def Value.isOverride : Value → Bool
  | .override _ => true
  | _ => false

theorem Value.isCallable_of_isOverride {v : Value} (hv : v.isOverride) : v.isCallable := by
  cases v with
  | override t => rfl
  | _ => cases hv

namespace Heap

/-- No frame binds an override to another name than `~`. -/
def OnlyTildeOverridden (h : Heap) : Prop :=
  ∀ e name v, h.local? e name = some v → v.isOverride → name = .tilde

theorem onlyTildeOverridden_iff {h : Heap} :
    h.OnlyTildeOverridden ↔ ∀ i < h.size, ∀ name ∈ (h.bindings ⟨i⟩).keys,
      ∀ v ∈ h.local? ⟨i⟩ name, v.isOverride → name = .tilde :=
  forall_local?_iff

instance (h : Heap) : Decidable h.OnlyTildeOverridden := decidable_of_iff' _ onlyTildeOverridden_iff

/-! ## The mask -/

/-- The mask with the given top frame is in force, above the first `n` frames. -/
structure InForce (n : Nat) (mask top : EnvId) (h : Heap) : Prop where
  override : h.local? mask .tilde = some (.override ⟨mask, top⟩)
  scope : ∃ e, h.local? mask .env = some (.env e) ∧ e.index < n
  isLive_top : h.isLive top
  onTop : mask = top ∨ h.Link mask top
  new : n ≤ top.index
  /-- From the first frames the links lead to the first frames alone. -/
  old : ∀ e p, e.index < n → h.Link e p → p.index < n
  onlyTilde : h.OnlyTildeOverridden

namespace InForce

variable {n : Nat} {mask top : EnvId} {h : Heap}

theorem isLive_mask (hf : h.InForce n mask top) : h.isLive mask :=
  isLive_of_local? hf.override

/-- The top frame is on the chain of the mask. -/
theorem hasAncestor_top (hf : h.InForce n mask top) : h.hasAncestor mask top = true := by
  rcases hf.onTop with rfl | hlink
  · exact hasAncestor_self h mask
  · have hsize : h.size ≠ 0 := Nat.ne_of_gt (Nat.zero_lt_of_lt (index_lt_of_link hlink))
    obtain ⟨k, hk⟩ := Nat.exists_eq_add_one_of_ne_zero hsize
    rw [hasAncestor_iff, chain, hk, chainUpTo_of_link hlink]
    exact List.mem_cons_of_mem _ (List.mem_cons_self ..)

/-- It is on the chain of no frame that was there before. -/
theorem hasAncestor_of_lt (hf : h.InForce n mask top) {e : EnvId} (he : e.index < n) :
    h.hasAncestor e top = false := by
  rw [Bool.eq_false_iff, ne_eq, hasAncestor_iff]
  intro hin
  have hold : ∀ x, ReflTransGen h.Link e x → x.index < n := by
    intro x hx
    induction hx with
    | refl => exact he
    | tail _ hlast ih => exact hf.old _ _ ih hlast
  exact absurd hf.new (Nat.not_le.2 (hold top (reflTransGen_of_mem_chainUpTo hin)))

/-- What `~` means in the mask. -/
theorem resolveWhere?_tilde (hf : h.InForce n mask top) :
    h.resolveWhere? mask .tilde Value.isCallable = some (.override ⟨mask, top⟩) := by
  obtain ⟨rest, hchain⟩ : ∃ rest, h.chain mask = mask :: rest := ⟨_, rfl⟩
  rw [resolveWhere?, hchain, List.findSome?_cons, hf.override]
  rfl

/-- No other name of a callable leads to an override. -/
theorem eq_tilde_of_resolveWhere? (hf : h.InForce n mask top) {e : EnvId} {name : Name}
    {accept : Value → Bool} {v : Value} (hv : h.resolveWhere? e name accept = some v)
    (hov : v.isOverride) : name = .tilde := by
  obtain ⟨g, -, hg⟩ := List.exists_of_findSome?_eq_some hv
  exact hf.onlyTilde g name v (Option.eq_some_of_filter_eq_some hg) hov

/-- Under another parent for its top frame the mask is in force. -/
theorem setParent (hf : h.InForce n mask top) (p : Option EnvId) :
    (h.setParent top p).InForce n mask top := by
  refine ⟨?_, ?_, ?_, ?_, hf.new, ?_, ?_⟩
  · rw [local?_setParent, hf.override]
  · obtain ⟨e, he, hlt⟩ := hf.scope
    exact ⟨e, by rw [local?_setParent, he], hlt⟩
  · rw [Heap.setParent, isLive_modify]
    exact hf.isLive_top
  · by_cases hmt : mask = top
    · exact Or.inl hmt
    · right
      rw [Link, parent?_setParent, if_neg (Ne.symm hmt)]
      exact hf.onTop.resolve_left hmt
  · intro e q he hq
    have hne : top ≠ e := fun heq => absurd hf.new (Nat.not_le.2 (heq ▸ he))
    rw [Link, parent?_setParent, if_neg hne] at hq
    exact hf.old e q he hq
  · intro e name v hv
    rw [local?_setParent] at hv
    exact hf.onlyTilde e name v hv

/-- With another scope under `.env` the mask is in force. -/
theorem bind_env (hf : h.InForce n mask top) {scope : EnvId} (hscope : scope.index < n) :
    (h.bind mask .env (.env scope)).InForce n mask top := by
  have hlinks := sameLinks_bind h mask .env (.env scope)
  refine ⟨?_, ⟨scope, ?_, hscope⟩, ?_, ?_, hf.new, ?_, ?_⟩
  · rw [local?_bind, if_neg (fun hc => absurd hc.2.2 (by decide)), hf.override]
  · rw [local?_bind, if_pos ⟨rfl, hf.isLive_mask, rfl⟩]
  · rw [hlinks.isLive]
    exact hf.isLive_top
  · exact hf.onTop.imp_right fun hlink => (hlinks.parent mask).trans hlink
  · exact fun e q he hq => hf.old e q he ((hlinks.parent e).symm.trans hq)
  · intro e name v hv hov
    rw [local?_bind] at hv
    split at hv
    · cases hv
      cases hov
    · exact hf.onlyTilde e name v hv hov

end InForce

end Heap

/-! ## States with a mask in force -/

/-- A state with a mask in force, where `.env` is the name of its text alone. -/
structure State.InForce (n : Nat) (mask top : EnvId) (s : State) : Prop where
  heap : s.heap.InForce n mask top
  settled : s.heap.Settled s.held
  lawful : s.interner.Lawful
  env : s.interner.text .env = ".env"

namespace State.InForce

variable {n : Nat} {mask top : EnvId} {s : State}

theorem learns {s' : State} (hs : s.InForce n mask top) (hl : s.LearnsTo s') :
    s'.InForce n mask top where
  heap := by
    rw [hl.heap]
    exact hs.heap
  settled := hl.settled hs.settled
  lawful := Memo.lawful_of_gains hl.memo hs.lawful
  env := by
    have hissued : Name.env.index < s.interner.size := by
      by_contra hnot
      have hnone : s.interner.texts[Name.env.index]? = none :=
        Array.getElem?_eq_none (Nat.le_of_not_lt hnot)
      have henv := hs.env
      rw [Interner.text, hnone] at henv
      exact absurd henv (by decide)
    exact ((Memo.extends_of_gains hl.memo).interner.text_eq hissued).trans hs.env

theorem nested (hs : s.InForce n mask top) :
    ({ s with depth := s.depth + 1 } : State).InForce n mask top :=
  ⟨hs.heap, hs.settled, hs.lawful, hs.env⟩

theorem spliced (hs : s.InForce n mask top) {target : EnvId} (ht : target.index < n) :
    (s.spliced mask top target).InForce n mask top := by
  refine ⟨?_, settled_spliced hs.settled mask top target, ?_, ?_⟩
  · unfold State.spliced
    split
    · exact (hs.heap.bind_env ht).setParent _
    · exact hs.heap.setParent _
  · unfold State.spliced
    split <;> exact hs.lawful
  · unfold State.spliced
    split <;> exact hs.env

/-- Another name than `.env` has another text. -/
theorem text_ne (hs : s.InForce n mask top) {name : Name} (hn : name ≠ .env) :
    s.interner.text name ≠ ".env" := by
  intro htext
  refine hn (Interner.eq_of_text hs.lawful (htext.trans hs.env.symm) ?_)
  rw [htext]
  decide

end State.InForce

theorem invariant_inForce (n : Nat) (mask top : EnvId) : Invariant (State.InForce n mask top) :=
  ⟨fun hs => hs.settled, fun hs hl => hs.learns hl⟩

/-! ## Errors and visits -/

/-- Not an error of the scope graph: no cycle, no top frame off the chain, no mask that was
dropped, and `.env` is defined. -/
structure EvalError.InScope (err : EvalError) : Prop where
  cyclicScope : err ≠ .cyclicScope
  notAnAncestor : err ≠ .notAnAncestor
  maskDropped : err ≠ .maskDropped
  env : err ≠ .undefinedVariable ".env"

theorem ordinary_inScope : Ordinary EvalError.InScope where
  plain {err} h := by
    refine ⟨?_, ?_, ?_, ?_⟩ <;> (rintro rfl; cases h)
  limit _ := by
    refine ⟨?_, ?_, ?_, ?_⟩ <;> (intro h; cases h)

theorem inScope_undefinedVariable {text : String} (htext : text ≠ ".env") :
    (EvalError.undefinedVariable text).InScope := by
  refine ⟨?_, ?_, ?_, fun heq => htext (EvalError.undefinedVariable.inj heq)⟩ <;>
    (intro h; cases h)

theorem inScope_invalidDataMask (defect : MaskDefect) :
    (EvalError.invalidDataMask defect).InScope := by
  refine ⟨?_, ?_, ?_, ?_⟩ <;> (intro h; cases h)

/-- The head of a call or of a formula object. -/
def Expr.head? : Expr → Option Head
  | .call head _ | .const (.formula head _ _ _) => some head
  | .symbol _ | .const _ | .missing => none

def Expr.isConst : Expr → Bool
  | .const _ => true
  | _ => false

/-- The visit is in the mask. If it is one of a `~` call, or of any formula object with a symbol
in its head, then the head means the override of the mask, whose frames are alive. -/
structure Visit.Routed (mask top : EnvId) (v : Visit) : Prop where
  env : v.env = mask
  override : ∀ name, v.expr.head? = some (.symbol name) → name = .tilde ∨ v.expr.isConst →
    ((Head.symbol name).resolve v.env v.state).1 = .ok (.override ⟨mask, top⟩) ∧
      (Override.frames ⟨mask, top⟩ v.state).1 = .ok (mask, top)

end Overscope
