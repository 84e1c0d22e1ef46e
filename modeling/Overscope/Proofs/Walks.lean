-- Walks in any scope graph, with cycles or without. A walk of as many frames as were
-- made has met every live frame that it ever meets, so what a name means at a frame is
-- its own binding or what it means at the parent.
import Overscope.Proofs.Acyclic

namespace Overscope.Heap

/-! ## Frames on a walk -/

/-- The frame that is `n` links further out. -/
def outer? (h : Heap) : Nat → EnvId → Option EnvId
  | 0, e => some e
  | n + 1, e => (h.parent? e).bind (h.outer? n)

theorem outer?_add (h : Heap) (m n : Nat) (e : EnvId) :
    h.outer? (m + n) e = (h.outer? m e).bind (h.outer? n) := by
  induction m generalizing e with
  | zero => rw [Nat.zero_add]; rfl
  | succ m ih =>
    rw [Nat.succ_add, outer?, outer?, Option.bind_assoc]
    congr 1
    funext p
    exact ih p

theorem getElem?_chainUpTo (h : Heap) (n k : Nat) (e : EnvId) :
    (h.chainUpTo n e)[k]? = if k < n then h.outer? k e else none := by
  induction n generalizing k e with
  | zero => rfl
  | succ n ih =>
    cases k with
    | zero => rfl
    | succ k =>
      rw [chainUpTo, List.getElem?_cons_succ, outer?]
      rcases h.parent? e with _ | p
      · simp
      · simp only [ih, Option.bind_some, Nat.add_lt_add_iff_right]

theorem outer?_of_getElem?_chainUpTo {h : Heap} {n k : Nat} {e x : EnvId}
    (hx : (h.chainUpTo n e)[k]? = some x) : k < n ∧ h.outer? k e = some x := by
  rw [getElem?_chainUpTo] at hx
  split at hx
  · next hk => exact ⟨hk, hx⟩
  · cases hx

/-- One frame more. -/
theorem chainUpTo_succ (h : Heap) (n : Nat) (e : EnvId) :
    h.chainUpTo (n + 1) e = h.chainUpTo n e ++ (h.outer? n e).toList := by
  induction n generalizing e with
  | zero =>
    rcases hp : h.parent? e with _ | p
    · rw [chainUpTo_of_root hp]
      rfl
    · rw [chainUpTo_of_link hp]
      rfl
  | succ n ih =>
    rcases hp : h.parent? e with _ | p
    · rw [chainUpTo_of_root hp, chainUpTo_of_root hp, outer?, hp]
      rfl
    · rw [chainUpTo_of_link hp, chainUpTo_of_link hp, ih, outer?, hp]
      rfl

/-- From a frame that a walk meets twice it goes round in a circle. -/
theorem outer?_of_repeat {h : Heap} {e x : EnvId} {i j n : Nat} (hi : h.outer? i e = some x)
    (hj : h.outer? j e = some x) (hjn : j ≤ n) : h.outer? n e = h.outer? (i + (n - j)) e := by
  obtain ⟨k, rfl⟩ := Nat.exists_eq_add_of_le hjn
  rw [Nat.add_sub_cancel_left, outer?_add, outer?_add, hi, hj]

/-- A walk that met a frame twice meets no new one. -/
theorem mem_chainUpTo_of_not_nodup {h : Heap} {n : Nat} {e x : EnvId}
    (hx : h.outer? n e = some x) (htwice : ¬ (h.chainUpTo (n + 1) e).Nodup) :
    x ∈ h.chainUpTo n e := by
  rw [List.nodup_iff_getElem?_ne_getElem?] at htwice
  push Not at htwice
  obtain ⟨i, j, hij, hj, hsame⟩ := htwice
  have hy := List.getElem?_eq_getElem hj
  obtain ⟨hjn, hjy⟩ := outer?_of_getElem?_chainUpTo hy
  obtain ⟨-, hiy⟩ := outer?_of_getElem?_chainUpTo (hsame.trans hy)
  have hback := outer?_of_repeat hiy hjy (Nat.le_of_lt_succ hjn)
  have hearlier : i + (n - j) < n := by omega
  apply List.mem_of_getElem? (i := i + (n - j))
  rw [getElem?_chainUpTo, if_pos hearlier, ← hback, hx]

/-- A frame that a walk meets after as many frames as were made was met before, or is
dead. -/
theorem mem_chainUpTo_size {h : Heap} {e x : EnvId} (hx : h.outer? h.size e = some x)
    (hl : h.isLive x) : x ∈ h.chainUpTo h.size e := by
  by_contra hnew
  have hnodup := not_not.1 (mt (mem_chainUpTo_of_not_nodup hx) hnew)
  have hwalk : h.chainUpTo (h.size + 1) e = h.chainUpTo h.size e ++ [x] := by
    rw [chainUpTo_succ, hx]
    rfl
  -- All of the frames are alive: they have a parent, and so is the last one.
  have hlive : ∀ y ∈ h.chainUpTo (h.size + 1) e, y ∈ h.liveFrames := by
    intro y hy
    rw [mem_liveFrames]
    by_cases hyx : y = x
    · exact hyx ▸ hl
    · apply isLive_of_mem_dropLast (n := h.size + 1) (e := e)
      rw [hwalk, List.dropLast_concat]
      rw [hwalk, List.mem_append, List.mem_singleton] at hy
      exact hy.resolve_right hyx
  have hlast : (h.chainUpTo (h.size + 1) e)[h.size]? = some x := by
    rw [getElem?_chainUpTo, if_pos (Nat.lt_succ_self _), hx]
  obtain ⟨hlong, -⟩ := List.getElem?_eq_some_iff.1 hlast
  have hlen := (hnodup.subperm hlive).length_le
  have hsize := length_liveFrames_le h
  omega

/-! ## Looking up -/

/-- A walk that met as many frames as were made has looked everywhere. -/
theorem findSome?_chainUpTo_size {α : Type} (h : Heap) (e : EnvId) {look : EnvId → Option α}
    (hdead : ∀ x, ¬ h.isLive x → look x = none) :
    (h.chainUpTo (h.size + 1) e).findSome? look = (h.chainUpTo h.size e).findSome? look := by
  rw [chainUpTo_succ, List.findSome?_append]
  rcases hx : h.outer? h.size e with _ | x
  · simp
  rcases hfound : (h.chainUpTo h.size e).findSome? look with _ | v
  · rw [Option.none_or]
    by_cases hl : h.isLive x
    · have hnone := List.findSome?_eq_none_iff.1 hfound x (mem_chainUpTo_size hx hl)
      simp [hnone]
    · simp [hdead x hl]
  · rfl

/-- What a name means at a frame is what the frame itself binds it to, or else what it
means at the parent. -/
theorem resolveWhere?_of_link {h : Heap} {e p : EnvId} (hp : h.Link e p) (name : Name)
    (accept : Value → Bool) :
    h.resolveWhere? e name accept =
      ((h.local? e name).filter accept).or (h.resolveWhere? p name accept) := by
  have hdead : ∀ x, ¬ h.isLive x → (h.local? x name).filter accept = none := by
    intro x hx
    rw [local?_of_not_isLive hx]
    rfl
  rw [resolveWhere?, resolveWhere?, chain, chain, findSome?_chainUpTo_size h p hdead,
    chainUpTo_of_link hp, List.findSome?_cons]
  rcases (h.local? e name).filter accept with _ | v <;> rfl

/-- A binding of the frame itself comes first. -/
theorem resolveWhere?_of_local? {h : Heap} {e : EnvId} {name : Name} {v : Value}
    {accept : Value → Bool} (hv : h.local? e name = some v) (ha : accept v) :
    h.resolveWhere? e name accept = some v := by
  rw [resolveWhere?, chain, chainUpTo, List.findSome?_cons, hv, Option.filter_some, if_pos ha]

/-- Any binding is accepted when a name is resolved. -/
theorem resolve?_eq_resolveWhere? (h : Heap) (e : EnvId) (name : Name) :
    h.resolve? e name = h.resolveWhere? e name fun _ => true := by
  rw [resolve?, resolveWhere?]
  congr 1
  funext f
  rcases h.local? f name with _ | v <;> rfl

theorem resolve?_of_local? {h : Heap} {e : EnvId} {name : Name} {v : Value}
    (hv : h.local? e name = some v) : h.resolve? e name = some v := by
  rw [resolve?_eq_resolveWhere?, resolveWhere?_of_local? hv rfl]

theorem resolve?_of_link {h : Heap} {e p : EnvId} (hp : h.Link e p) (name : Name) :
    h.resolve? e name = (h.local? e name).or (h.resolve? p name) := by
  rw [resolve?_eq_resolveWhere?, resolve?_eq_resolveWhere?, resolveWhere?_of_link hp]
  rcases h.local? e name with _ | v <;> rfl

end Overscope.Heap
