-- The environments that code and values keep alive: those of their parts, each
-- listed once however often the part occurs.
import Overscope.Code.Entries

namespace Overscope

theorem mem_joinHandles {es fs : List EnvId} {x : EnvId} :
    x ∈ joinHandles es fs ↔ x ∈ es ∨ x ∈ fs := by
  induction es with
  | nil => simp [joinHandles]
  | cons e es ih => grind [joinHandles]

/-! ## The handles of the parts -/

/-- Operands keep alive what one of them does. -/
theorem Args.mem_handles_iff {x : EnvId} : ∀ args : Args,
    x ∈ args.handles ↔ ∃ e ∈ args.toList, x ∈ e.handles
  | .nil => by simp [Args.handles, Args.toList]
  | .cons e rest => by
    simp [Args.handles, Args.toList, mem_joinHandles, rest.mem_handles_iff]

/-- Entries keep alive what the value of one of them does. -/
theorem Entries.mem_handles_iff {x : EnvId} : ∀ entries : Entries,
    x ∈ entries.handles ↔ ∃ e ∈ entries.toList, x ∈ e.value.handles
  | .nil => by simp [Entries.handles, Entries.toList]
  | .cons name value rest => by
    simp [Entries.handles, Entries.toList, mem_joinHandles, rest.mem_handles_iff]

/-- A formula keeps alive its own environment and what its operands do. -/
theorem Formula.mem_handles_iff {x : EnvId} (f : Formula) :
    x ∈ f.toValue.handles ↔ f.env = some x ∨ x ∈ f.args.handles := by
  simp [Formula.toValue, Value.handles, mem_joinHandles]

end Overscope
