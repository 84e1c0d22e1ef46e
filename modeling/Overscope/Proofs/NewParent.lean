-- What a new parent does to the scope graph. It is refused exactly when it would close a
-- cycle, and then nothing has changed. Otherwise one parent link is another one, and with it
-- the chains that go through the frame: they keep what leads up to it.
import Overscope.Proofs.Splicing
import Overscope.Session.Basic

open Relation

namespace Overscope

namespace Heap

/-! ## Which parents are refused -/

theorem acyclic_setParent_iff {h : Heap} (hac : h.Acyclic) {e : EnvId} (hl : h.isLive e)
    {parent : Option EnvId} :
    (h.setParent e parent).Acyclic ↔ parent.any (h.hasAncestor · e) = false := by
  cases parent with
  | none => exact iff_of_true (acyclic_setParent_none hac e) rfl
  | some p =>
    rw [Option.any_some, ← Bool.not_eq_true]
    exact ⟨fun hac' ha => hac' e (transGen_setParent_self hac hl ha), acyclic_setParent hac⟩

/-! ## The graph under a new parent -/

section
variable {h : Heap} {g e : EnvId} {below above : List EnvId}
  (hg : h.chain g = below ++ e :: above)
include hg

theorem hasAncestor_of_chain_eq : h.hasAncestor g e = true := by
  rw [hasAncestor_iff, hg]
  exact List.mem_append_right _ (List.mem_cons_self ..)

/-- A chain through a frame is cut in two at one place only. -/
theorem dataFrames_of_chain_eq (hac : h.Acyclic) : h.dataFrames g e = below ++ [e] := by
  have hnodup : (below ++ e :: above).Nodup := hg ▸ nodup_chainUpTo hac (h.size + 1) g
  have hbelow : e ∉ below := fun he =>
    (List.nodup_append.1 hnodup).2.2 e he e (List.mem_cons_self ..) rfl
  have hidx : (below ++ e :: above).idxOf e = below.length := by
    rw [List.idxOf_append_of_notMem hbelow, List.idxOf_cons_self, Nat.add_zero]
  simp only [dataFrames, hasAncestor_of_chain_eq hg, if_true, hg, hidx,
    List.take_length_add_append, List.take_succ_cons, List.take_zero]

end

/-- `t` is `h` with another parent of the frame `e`, and without a cycle. A chain that goes
through `e` goes on from there in the chain of the new parent; any other is what it was. -/
structure Rehung (h : Heap) (e : EnvId) (parent : Option EnvId) (t : Heap) : Prop where
  size : t.size = h.size
  self : t.frame? e = (h.frame? e).map fun f => { f with parent }
  others : ∀ g, g ≠ e → t.frame? g = h.frame? g
  acyclic : t.Acyclic
  chain_of_off : ∀ g, e ∉ h.chain g → t.chain g = h.chain g
  chain_of_on : ∀ g below above, h.chain g = below ++ e :: above →
    t.chain g = below ++ e :: (parent.map h.chain).getD []

theorem rehung_setParent {h : Heap} (hac : h.Acyclic) {e : EnvId} (hl : h.isLive e)
    {parent : Option EnvId} (hac' : (h.setParent e parent).Acyclic) :
    h.Rehung e parent (h.setParent e parent) where
  size := size_modify h e _
  self := (frame?_modify h e e _).trans (if_pos rfl)
  others g hne := (frame?_modify h e g _).trans (if_neg (Ne.symm hne))
  acyclic := hac'
  chain_of_off g hoff := chain_setParent_of_off (fun ha => hoff (hasAncestor_iff.1 ha)) parent
  chain_of_on g below above hg := by
    rw [chain_setParent hac hac' hl (hasAncestor_of_chain_eq hg), dataFrames_of_chain_eq hg hac,
      List.append_assoc]
    rfl

end Heap

/-! ## Steps of a session that change the scope graph -/

section
variable {α : Type} {f : Heap → Except EvalError (α × Heap)} {s : Session}

theorem makeOnHeap_run_ok {a : α} {h : Heap} (hf : f s.state.heap = .ok (a, h)) :
    makeOnHeap f s = (.ok a, { s with state := { s.state with heap := h } }) := by
  simp only [makeOnHeap, onHeap, Attempt.bind_run, Attempt.read, hf]
  rfl

/-- A change that fails is not begun. -/
theorem makeOnHeap_run_error {err : EvalError} (hf : f s.state.heap = .error err) :
    makeOnHeap f s = (.error (.evaluation err), s) := by
  simp only [makeOnHeap, onHeap, Attempt.bind_run, Attempt.read, hf]
  rfl

end

/-! ## Giving a frame a new parent -/

/-- What comes of giving the frame `e` a new parent. -/
structure Session.GivesParent (s : Session) (e : EnvId) (parent : Option EnvId)
    (answer : Except Failure (Option EnvId)) (t : Session) : Prop where
  /-- The parents that close a cycle are refused, and no others. -/
  refused_iff : answer = .error (.evaluation .cyclicScope) ↔
    ¬ (s.state.heap.setParent e parent).Acyclic
  /-- There is no other failure, and a failure changes nothing. -/
  refused : ∀ failure, answer = .error failure → failure = .evaluation .cyclicScope ∧ t = s
  /-- The answer is the old parent, and of the session the scope graph alone has changed. -/
  accepted : ∀ old, answer = .ok old → old = s.state.heap.parent? e ∧
    t = { s with state := { s.state with heap := t.state.heap } } ∧
    s.state.heap.Rehung e parent t.state.heap

theorem replaceParent_exact {s : Session} (hac : s.state.heap.Acyclic) {e : EnvId}
    (hl : s.state.heap.isLive e) (parent : Option EnvId) :
    s.GivesParent e parent (makeOnHeap (·.replaceParent e parent) s).1
      (makeOnHeap (·.replaceParent e parent) s).2 := by
  have hiff : (s.state.heap.setParent e parent).Acyclic ↔ _ := Heap.acyclic_setParent_iff hac hl
  cases hr : s.state.heap.reparent e parent with
  | error err =>
    obtain ⟨rfl, hcyc⟩ := Heap.reparent_eq_error_iff.1 hr
    have hnot : ¬ (s.state.heap.setParent e parent).Acyclic := fun hac' => by
      rw [hiff.1 hac'] at hcyc
      cases hcyc
    have hrun : makeOnHeap (·.replaceParent e parent) s =
        (.error (.evaluation .cyclicScope), s) :=
      makeOnHeap_run_error (by rw [Heap.replaceParent, hr]; rfl)
    rw [hrun]
    exact
      { refused_iff := iff_of_true rfl hnot
        refused := fun failure hf => ⟨(Except.error.inj hf).symm, rfl⟩
        accepted := fun old hold => by cases hold }
  | ok h =>
    obtain ⟨hoff, rfl⟩ := Heap.reparent_eq_ok_iff.1 hr
    have hac' := hiff.2 hoff
    rw [makeOnHeap_run_ok (a := s.state.heap.parent? e)
      (h := s.state.heap.setParent e parent) (by rw [Heap.replaceParent, hr]; rfl)]
    exact
      { refused_iff := iff_of_false (fun hf => by cases hf) (fun hnot => hnot hac')
        refused := fun failure hf => by cases hf
        accepted := fun old hold =>
          ⟨(Except.ok.inj hold).symm, rfl, Heap.rehung_setParent hac hl hac'⟩ }

/-- The frame of data of the sample mask ⟨4⟩ is not hung into the mask. It is hung into the
global environment, and then the mask is in that one too. -/
theorem replaceParent_exact_sample :
    let s := { Session.initial .unlimited with state := .sample }
    s.state.heap.Acyclic ∧ s.state.heap.isLive ⟨3⟩ ∧
      (makeOnHeap (·.replaceParent ⟨3⟩ (some ⟨4⟩)) s).1 = .error (.evaluation .cyclicScope) ∧
      (makeOnHeap (·.replaceParent ⟨3⟩ (some .global)) s).1 = .ok (some ⟨2⟩) ∧
      s.state.heap.chain ⟨4⟩ = [⟨4⟩, ⟨3⟩, ⟨2⟩, .base] ∧
      (makeOnHeap (·.replaceParent ⟨3⟩ (some .global)) s).2.state.heap.chain ⟨4⟩ =
        [⟨4⟩, ⟨3⟩, .global, .base] := by
  intro s
  have hac : s.state.heap.Acyclic := State.sound_sample.acyclic
  have hl : s.state.heap.isLive ⟨3⟩ := by decide
  have hanswer : (makeOnHeap (·.replaceParent ⟨3⟩ (some .global)) s).1 = .ok (some ⟨2⟩) := rfl
  have hchain : s.state.heap.chain ⟨4⟩ = [⟨4⟩, ⟨3⟩, ⟨2⟩, .base] := by decide
  have hgiven := (replaceParent_exact hac hl (some .global)).accepted _ hanswer
  refine ⟨hac, hl, ?_, hanswer, hchain, ?_⟩
  · exact (replaceParent_exact hac hl (some ⟨4⟩)).refused_iff.2 (by decide +kernel)
  · exact hgiven.2.2.chain_of_on ⟨4⟩ [⟨4⟩] [⟨2⟩, .base] hchain

end Overscope
