-- Steps that change a state and may fail. A failure keeps the changes made up to
-- it: what is to be undone has to be put back by the step itself.
namespace Overscope

/-- A step from a state to an outcome and the state after it. -/
def Attempt (σ ε α : Type) := σ → Except ε α × σ

namespace Attempt

variable {σ ε α β : Type}

/-- Runs a step, and the next one on its result. A failure ends the run. -/
@[inline]
protected def bind (x : Attempt σ ε α) (f : α → Attempt σ ε β) : Attempt σ ε β := fun s =>
  match x s with
  | (.ok a, s') => f a s'
  | (.error e, s') => (.error e, s')

@[always_inline]
instance : Monad (Attempt σ ε) where
  pure a := fun s => (.ok a, s)
  bind := Attempt.bind

@[inline]
def fail (e : ε) : Attempt σ ε α := fun s => (.error e, s)

/-- Reads something off the state. -/
@[inline]
def read (f : σ → α) : Attempt σ ε α := fun s => (.ok (f s), s)

/-- Changes the state. -/
@[inline]
def update (f : σ → σ) : Attempt σ ε Unit := fun s => (.ok (), f s)

/-- A result that may be a failure. -/
@[inline]
def ofExcept (x : Except ε α) : Attempt σ ε α := fun s => (x, s)

/-- A result that may be absent, which is the failure `e`. -/
@[inline]
def ofOption (e : ε) : Option α → Attempt σ ε α
  | some a => pure a
  | none => fail e

theorem pure_run (a : α) (s : σ) : (pure a : Attempt σ ε α) s = (.ok a, s) := rfl

theorem bind_run (x : Attempt σ ε α) (f : α → Attempt σ ε β) (s : σ) :
    (x >>= f) s = match x s with
      | (.ok a, s') => f a s'
      | (.error e, s') => (.error e, s') := rfl

theorem bind_run_ok {x : Attempt σ ε α} {f : α → Attempt σ ε β} {s s' : σ} {a : α}
    (h : x s = (.ok a, s')) : (x >>= f) s = f a s' := by
  simp [bind_run, h]

theorem bind_run_error {x : Attempt σ ε α} {f : α → Attempt σ ε β} {s s' : σ} {e : ε}
    (h : x s = (.error e, s')) : (x >>= f) s = (.error e, s') := by
  simp [bind_run, h]

theorem map_id_run (x : Attempt σ ε α) : id <$> x = x := by
  funext s
  simp only [Functor.map, Attempt.bind]
  rcases x s with ⟨_ | _, _⟩ <;> rfl

theorem bind_assoc_run {γ : Type} (x : Attempt σ ε α) (f : α → Attempt σ ε β)
    (g : β → Attempt σ ε γ) : x >>= f >>= g = x >>= fun a => f a >>= g := by
  funext s
  simp only [bind, Attempt.bind]
  rcases x s with ⟨_ | _, _⟩ <;> rfl

instance : LawfulMonad (Attempt σ ε) :=
  LawfulMonad.mk' _ map_id_run (fun _ _ => rfl) bind_assoc_run

end Attempt

end Overscope
