-- Names: small numbers that stand for texts. Two names of one interner are the
-- same exactly when their texts are.
namespace Overscope

/-- An interned name, the index of its text. -/
structure Name where
  index : Nat
deriving DecidableEq, Repr

namespace Name

/-! ## The names with a fixed meaning

An interner issues these first, in this order, so their indices are known. -/

/-- The empty text, which counts as no name for a column. -/
def empty : Name := ⟨0⟩

/-- `~`, the operator that an overscope overrides. -/
def tilde : Name := ⟨1⟩

/-- `.env`: where a quosure without a scope of its own is evaluated. -/
def env : Name := ⟨8⟩

/-- `.top_env`: the frame of a mask whose parent link is rewired. -/
def topEnv : Name := ⟨9⟩

/-- `.data`: the pronoun that reads the data alone. -/
def data : Name := ⟨10⟩

/-- The name whose presence makes a frame a data mask. -/
def maskFlag : Name := ⟨11⟩

end Name

end Overscope
