-- Scope graphs without a cycle. There every walk from a frame to its ancestors
-- ends, after no more frames than are alive and one, and what it meets is exactly
-- what the parent links reach. A new parent link closes a cycle exactly when the
-- frame is an ancestor of its new parent.
import Mathlib.Data.List.Perm.Subperm
import Mathlib.Logic.Relation
import Overscope.Proofs.Living

open Relation

namespace Overscope.Heap

/-! ## Links -/

/-- `p` is the parent of `e`. -/
def Link (h : Heap) (e p : EnvId) : Prop := h.parent? e = some p

/-- No frame is one of its own proper ancestors. -/
def Acyclic (h : Heap) : Prop := ∀ e, ¬ TransGen h.Link e e

/-- The walk from a frame to its ancestors ends at a frame without a parent. -/
def WalkEnds (h : Heap) (e : EnvId) : Prop := (h.chain e).getLast?.bind h.parent? = none

theorem Link.eq {h : Heap} {e p q : EnvId} (hp : h.Link e p) (hq : h.Link e q) : p = q :=
  Option.some.inj (hp.symm.trans hq)

theorem mem_handles_of_link {h : Heap} {e p : EnvId} (hp : h.Link e p) : p ∈ h.handles := by
  rcases hf : h.frame? e with _ | f
  · rw [Link, parent?, hf] at hp
    cases hp
  · refine mem_handles_iff.2 ⟨e, f, hf, List.mem_append_left _ ?_⟩
    rw [Link, parent?, hf] at hp
    exact Option.mem_toList.2 hp

/-- What lies on a cycle has its parent on the cycle. -/
theorem transGen_of_link {h : Heap} {e p : EnvId} (hp : h.Link e p) (hc : TransGen h.Link e e) :
    TransGen h.Link p p := by
  obtain ⟨q, hq, hrest⟩ := TransGen.head'_iff.1 hc
  rw [← hp.eq hq] at hrest
  exact TransGen.tail' hrest hp

/-! ## Walks of any length -/

theorem chainUpTo_of_link {h : Heap} {e p : EnvId} (hp : h.Link e p) (n : Nat) :
    h.chainUpTo (n + 1) e = e :: h.chainUpTo n p := by
  rw [chainUpTo, show h.parent? e = some p from hp]

theorem chainUpTo_of_root {h : Heap} {e : EnvId} (hr : h.parent? e = none) (n : Nat) :
    h.chainUpTo (n + 1) e = [e] := by
  rw [chainUpTo, hr]

/-- A shorter walk is the beginning of a longer one. -/
theorem take_chainUpTo {h : Heap} {n m : Nat} (hnm : n ≤ m) (e : EnvId) :
    (h.chainUpTo m e).take n = h.chainUpTo n e := by
  induction n generalizing m e with
  | zero => rfl
  | succ n ih =>
    obtain ⟨m, rfl⟩ := Nat.exists_eq_add_one_of_ne_zero (by omega : m ≠ 0)
    rcases hp : h.parent? e with _ | p
    · rw [chainUpTo_of_root hp, chainUpTo_of_root hp, List.take_succ_cons, List.take_nil]
    · rw [chainUpTo_of_link hp, chainUpTo_of_link hp, List.take_succ_cons, ih (by omega)]

/-- A walk depends on the parents of the frames that it meets. -/
theorem chainUpTo_congr {h t : Heap} {n : Nat} {e : EnvId}
    (hsame : ∀ f ∈ h.chainUpTo n e, t.parent? f = h.parent? f) :
    t.chainUpTo n e = h.chainUpTo n e := by
  induction n generalizing e with
  | zero => rfl
  | succ n ih =>
    have hparent : t.parent? e = h.parent? e := hsame e (List.mem_cons_self ..)
    rcases hp : h.parent? e with _ | p
    · rw [chainUpTo_of_root hp, chainUpTo_of_root (hparent.trans hp)]
    · rw [chainUpTo_of_link hp] at hsame
      rw [chainUpTo_of_link hp, chainUpTo_of_link (hparent.trans hp),
        ih fun f hf => hsame f (List.mem_cons_of_mem e hf)]

/-- A walk meets nothing but ancestors. -/
theorem reflTransGen_of_mem_chainUpTo {h : Heap} {n : Nat} {e x : EnvId}
    (hx : x ∈ h.chainUpTo n e) : ReflTransGen h.Link e x := by
  induction n generalizing e with
  | zero => simp [chainUpTo] at hx
  | succ n ih =>
    rcases hp : h.parent? e with _ | p
    · rw [chainUpTo_of_root hp, List.mem_singleton] at hx
      rw [hx]
    · rw [chainUpTo_of_link hp] at hx
      rcases List.mem_cons.1 hx with rfl | hx
      · exact ReflTransGen.refl
      · exact ReflTransGen.head hp (ih hx)

theorem nodup_chainUpTo {h : Heap} (hac : h.Acyclic) (n : Nat) (e : EnvId) :
    (h.chainUpTo n e).Nodup := by
  induction n generalizing e with
  | zero => exact List.nodup_nil
  | succ n ih =>
    rcases hp : h.parent? e with _ | p
    · rw [chainUpTo_of_root hp]
      exact List.nodup_singleton e
    · rw [chainUpTo_of_link hp, List.nodup_cons]
      refine ⟨fun he => hac e ?_, ih p⟩
      exact TransGen.head' hp (reflTransGen_of_mem_chainUpTo he)

/-- All that a walk meets before its last frame is alive, since it has a parent. -/
theorem isLive_of_mem_dropLast {h : Heap} {n : Nat} {e x : EnvId}
    (hx : x ∈ (h.chainUpTo n e).dropLast) : h.isLive x := by
  induction n generalizing e with
  | zero => simp [chainUpTo] at hx
  | succ n ih =>
    rcases hp : h.parent? e with _ | p
    · simp [chainUpTo_of_root hp] at hx
    · rw [chainUpTo_of_link hp] at hx
      cases n with
      | zero => simp [chainUpTo] at hx
      | succ n =>
        rw [List.dropLast_cons_of_ne_nil (by simp [chainUpTo])] at hx
        rcases List.mem_cons.1 hx with rfl | hx
        · exact isLive_of_parent? hp
        · exact ih hx

/-- Without a cycle a walk meets each live frame at most once, and one frame more
at its end. -/
theorem length_chainUpTo_le {h : Heap} (hac : h.Acyclic) (n : Nat) (e : EnvId) :
    (h.chainUpTo n e).length ≤ h.liveFrames.length + 1 := by
  have hnodup : (h.chainUpTo n e).dropLast.Nodup :=
    (nodup_chainUpTo hac n e).sublist (List.dropLast_sublist _)
  have hsub : (h.chainUpTo n e).dropLast ⊆ h.liveFrames := fun x hx =>
    mem_liveFrames.2 (isLive_of_mem_dropLast hx)
  have hle := (hnodup.subperm hsub).length_le
  rw [List.length_dropLast] at hle
  omega

/-- Without a cycle the length of a walk does not matter, once it may meet every
live frame. -/
theorem chainUpTo_eq_chain {h : Heap} (hac : h.Acyclic) {n : Nat}
    (hn : h.liveFrames.length + 1 ≤ n) (e : EnvId) : h.chainUpTo n e = h.chain e := by
  have hlong : ∀ m, h.liveFrames.length + 1 ≤ m →
      h.chainUpTo m e = h.chainUpTo (h.liveFrames.length + 1) e := by
    intro m hm
    rw [← take_chainUpTo hm e]
    exact (List.take_of_length_le (length_chainUpTo_le hac m e)).symm
  have hsize := length_liveFrames_le h
  rw [chain, hlong n hn, hlong (h.size + 1) (by omega)]

/-! ## Chains -/

theorem chain_of_link {h : Heap} (hac : h.Acyclic) {e p : EnvId} (hp : h.Link e p) :
    h.chain e = e :: h.chain p := by
  have hsize := length_liveFrames_le h
  rw [← chainUpTo_eq_chain hac (n := h.size + 2) (by omega) e, chainUpTo_of_link hp, chain]

theorem chain_of_root {h : Heap} {e : EnvId} (hr : h.parent? e = none) : h.chain e = [e] :=
  chainUpTo_of_root hr h.size

/-- The chain of a frame holds its ancestors and nothing else. -/
theorem mem_chain_iff {h : Heap} (hac : h.Acyclic) {e x : EnvId} :
    x ∈ h.chain e ↔ ReflTransGen h.Link e x := by
  constructor
  · exact reflTransGen_of_mem_chainUpTo
  · intro hx
    induction hx using ReflTransGen.head_induction_on with
    | refl => exact List.mem_of_head? (h.head?_chain x)
    | head hp _ ih =>
      rw [chain_of_link hac hp]
      exact List.mem_cons_of_mem _ ih

theorem hasAncestor_iff_reflTransGen {h : Heap} (hac : h.Acyclic) {e x : EnvId} :
    h.hasAncestor e x = true ↔ ReflTransGen h.Link e x := by
  rw [hasAncestor_iff, mem_chain_iff hac]

/-- A walk that a further step does not make longer is at its end. -/
theorem parent?_getLast?_chainUpTo {h : Heap} {n : Nat} {e : EnvId}
    (he : h.chainUpTo (n + 2) e = h.chainUpTo (n + 1) e) :
    (h.chainUpTo (n + 1) e).getLast?.bind h.parent? = none := by
  induction n generalizing e with
  | zero =>
    rcases hp : h.parent? e with _ | p
    · simp [chainUpTo_of_root hp, hp]
    · rw [chainUpTo_of_link hp, chainUpTo_of_link hp] at he
      simp [chainUpTo] at he
  | succ n ih =>
    rcases hp : h.parent? e with _ | p
    · simp [chainUpTo_of_root hp, hp]
    · rw [chainUpTo_of_link hp, chainUpTo_of_link hp] at he
      have hlast := ih (List.cons.inj he).2
      rw [chainUpTo_of_link hp, List.getLast?_cons_of_ne_nil (by simp [chainUpTo])]
      exact hlast

theorem walkEnds_of_acyclic {h : Heap} (hac : h.Acyclic) (e : EnvId) : h.WalkEnds e := by
  have hsize := length_liveFrames_le h
  have hstop := chainUpTo_eq_chain hac (n := h.size + 2) (by omega) e
  exact parent?_getLast?_chainUpTo hstop

/-- On a cycle a walk of any length goes on. -/
theorem parent?_ne_none_of_cycle {h : Heap} {n : Nat} {e x : EnvId} (hc : TransGen h.Link e e)
    (hx : x ∈ h.chainUpTo n e) : h.parent? x ≠ none := by
  have hcx : TransGen h.Link x x := by
    have hreach := reflTransGen_of_mem_chainUpTo hx
    clear hx
    induction hreach with
    | refl => exact hc
    | tail _ hp ih => exact transGen_of_link hp ih
  obtain ⟨p, hp, _⟩ := TransGen.head'_iff.1 hcx
  rw [show h.parent? x = some p from hp]
  simp

/-- The scope graph has no cycle exactly when every walk ends. -/
theorem acyclic_iff_walkEnds {h : Heap} : h.Acyclic ↔ ∀ e, h.WalkEnds e := by
  constructor
  · exact walkEnds_of_acyclic
  · intro hw e hc
    obtain ⟨last, hlast⟩ := Option.isSome_iff_exists.1
      (List.getLast?_isSome.2 (List.ne_nil_of_mem (List.mem_of_head? (h.head?_chain e))))
    have hstop := hw e
    rw [WalkEnds, hlast, Option.bind_some] at hstop
    exact parent?_ne_none_of_cycle hc (List.mem_of_getLast? hlast) hstop

/-- Whether there is a cycle shows on the walks from the frames made so far. -/
theorem acyclic_iff_walkEnds_lt {h : Heap} :
    h.Acyclic ↔ ∀ i < h.size, ((h.chain ⟨i⟩).getLast?.bind h.parent?).isNone := by
  simp only [Option.isNone_iff_eq_none]
  constructor
  · exact fun hac i _ => walkEnds_of_acyclic hac ⟨i⟩
  · intro hw
    refine acyclic_iff_walkEnds.2 fun e => ?_
    rcases Nat.lt_or_ge e.index h.size with hlt | hge
    · exact hw e.index hlt
    · have hr : h.parent? e = none := by
        rcases hp : h.parent? e with _ | p
        · rfl
        · have := index_lt_size (isLive_of_parent? hp)
          omega
      simp [WalkEnds, chain_of_root hr, hr]

instance (h : Heap) : Decidable h.Acyclic := decidable_of_iff' _ acyclic_iff_walkEnds_lt

/-! ## Changes of links -/

/-- Without new links there is no new cycle. -/
theorem acyclic_of_link_imp {h h' : Heap} (hl : ∀ e p, h'.Link e p → h.Link e p)
    (hac : h.Acyclic) : h'.Acyclic :=
  fun e hc => hac e (TransGen.mono hl e e hc)

theorem acyclic_bind {h : Heap} (hac : h.Acyclic) (e : EnvId) (name : Name) (v : Value) :
    (h.bind e name v).Acyclic :=
  acyclic_of_link_imp (fun a _ hp => (parent?_bind h e a name v).symm.trans hp) hac

theorem link_setParent_iff {h : Heap} {e a b : EnvId} {p : Option EnvId} :
    (h.setParent e p).Link a b ↔
      (a = e ∧ h.isLive e ∧ p = some b) ∨ (a ≠ e ∧ h.Link a b) := by
  unfold Link
  rw [parent?_setParent]
  by_cases hea : e = a
  · subst hea
    by_cases hl : h.isLive e <;> simp [hl]
  · simp [hea, Ne.symm hea]

/-- A chain with the new link is a chain without it, or one up to the frame and
one on from its new parent. -/
theorem transGen_setParent {h : Heap} {e p a b : EnvId}
    (hab : TransGen (h.setParent e (some p)).Link a b) :
    TransGen h.Link a b ∨ (ReflTransGen h.Link a e ∧ ReflTransGen h.Link p b) := by
  induction hab with
  | single hb =>
    rcases link_setParent_iff.1 hb with ⟨rfl, _, hp⟩ | ⟨_, hb⟩
    · cases hp
      exact Or.inr ⟨ReflTransGen.refl, ReflTransGen.refl⟩
    · exact Or.inl (TransGen.single hb)
  | tail _ hb ih =>
    rcases link_setParent_iff.1 hb with ⟨rfl, _, hp⟩ | ⟨_, hb⟩
    · cases hp
      refine Or.inr ⟨?_, ReflTransGen.refl⟩
      rcases ih with ih | ih
      · exact ih.to_reflTransGen
      · exact ih.1
    · rcases ih with ih | ih
      · exact Or.inl (ih.tail hb)
      · exact Or.inr ⟨ih.1, ih.2.tail hb⟩

theorem acyclic_setParent {h : Heap} (hac : h.Acyclic) {e p : EnvId}
    (hn : ¬ h.hasAncestor p e) : (h.setParent e (some p)).Acyclic := by
  intro a hc
  rcases transGen_setParent hc with hc | ⟨hae, hpa⟩
  · exact hac a hc
  · exact hn ((hasAncestor_iff_reflTransGen hac).2 (hpa.trans hae))

theorem acyclic_setParent_none {h : Heap} (hac : h.Acyclic) (e : EnvId) :
    (h.setParent e none).Acyclic := by
  apply acyclic_of_link_imp _ hac
  intro a b hab
  rcases link_setParent_iff.1 hab with ⟨_, _, hb⟩ | ⟨_, hab⟩
  · simp at hb
  · exact hab

/-- A frame keeps those below it whatever its parent becomes. -/
theorem reflTransGen_setParent {h : Heap} {e a : EnvId} (hae : ReflTransGen h.Link a e)
    (p : Option EnvId) : ReflTransGen (h.setParent e p).Link a e := by
  induction hae using ReflTransGen.head_induction_on with
  | refl => exact ReflTransGen.refl
  | @head a c hac _ ih =>
    by_cases hae : a = e
    · rw [hae]
    · exact ReflTransGen.head (link_setParent_iff.2 (Or.inr ⟨hae, hac⟩)) ih

/-- A new parent that is below the frame makes the frame its own proper ancestor. -/
theorem transGen_setParent_self {h : Heap} (hac : h.Acyclic) {e p : EnvId} (hl : h.isLive e)
    (ha : h.hasAncestor p e) : TransGen (h.setParent e (some p)).Link e e := by
  have hpe := reflTransGen_setParent ((hasAncestor_iff_reflTransGen hac).1 ha) (some p)
  exact TransGen.head' (link_setParent_iff.2 (Or.inl ⟨rfl, hl, rfl⟩)) hpe

theorem acyclic_of_reparent {h h' : Heap} {e : EnvId} {parent : Option EnvId} (hac : h.Acyclic)
    (hr : h.reparent e parent = .ok h') : h'.Acyclic := by
  obtain ⟨hn, rfl⟩ := reparent_eq_ok_iff.1 hr
  cases parent with
  | none => exact acyclic_setParent_none hac e
  | some p => exact acyclic_setParent hac (by simpa using hn)

/-! ## Sweeping -/

theorem link_of_link_sweep {h : Heap} {held : List EnvId} {e p : EnvId}
    (hp : (h.sweep held).Link e p) : h.Link e p := by
  rw [Link, parent?, ← frame?_sweep_of_isLive (isLive_of_parent? hp)]
  exact hp

theorem acyclic_sweep {h : Heap} (hac : h.Acyclic) (held : List EnvId) :
    (h.sweep held).Acyclic :=
  acyclic_of_link_imp (fun _ _ => link_of_link_sweep) hac

/-- A frame on a cycle is held by the frame before it, so a sweep spares it. -/
theorem frame?_sweep_of_cycle {h : Heap} (held : List EnvId) {e : EnvId}
    (hc : TransGen h.Link e e) : (h.sweep held).frame? e = h.frame? e := by
  refine sweepUpTo_induction
    (P := fun h' => ∀ x, TransGen h.Link x x → h'.frame? x = h.frame? x) ?_ _ (fun _ _ => rfl) e hc
  intro h' hkept x hx
  obtain ⟨y, hxy, hyx⟩ := TransGen.tail'_iff.1 hx
  have hlink : h'.Link y x := by
    rw [Link, parent?, hkept y (TransGen.head' hyx hxy)]
    exact hyx
  have hspared : x ∉ h'.unheld held := fun hin =>
    (mem_unheld_iff.1 hin).2.1 (mem_handles_of_link hlink)
  rw [frame?_foldl_kill, if_neg hspared]
  exact hkept x hx

theorem link_sweep_of_cycle {h : Heap} (held : List EnvId) {a b : EnvId}
    (hc : TransGen h.Link a a) (hab : h.Link a b) : (h.sweep held).Link a b := by
  rw [Link, parent?, frame?_sweep_of_cycle held hc]
  exact hab

/-- A cycle survives a sweep. -/
theorem transGen_sweep {h : Heap} (held : List EnvId) {e : EnvId} (hc : TransGen h.Link e e) :
    TransGen (h.sweep held).Link e e := by
  -- What the links lead to from a frame of the cycle is on the cycle too.
  have hpath : ∀ a, TransGen h.Link a e → TransGen h.Link a a → TransGen (h.sweep held).Link a e := by
    intro a hae
    induction hae using TransGen.head_induction_on with
    | single hlast =>
      intro ha
      exact TransGen.single (link_sweep_of_cycle held ha hlast)
    | head hfirst _ ih =>
      intro ha
      exact TransGen.head (link_sweep_of_cycle held ha hfirst) (ih (transGen_of_link hfirst ha))
  exact hpath e hc hc

end Overscope.Heap
