-- Which names code mentions, and where: as an operand, as the head of a call, or as a member
-- that a string spells. These are all the positions in which code reads a name.
import Overscope.Proofs.Steady

namespace Overscope

/-! ## Mentions -/

/-- A name in a position of code. -/
inductive Mention where
  /-- Evaluated, or the member that a symbol spells. -/
  | symbol (n : Name)
  /-- The head of a call or of a formula. -/
  | head (n : Name)
  /-- A string where calls of that head have the name of a member. -/
  | member (head : Head) (text : String)
deriving DecidableEq, Repr

/-- The string in the place of the member. -/
def Args.spelled? : Args → Option String
  | .cons _ (.cons (.const (.str text)) .nil) => some text
  | _ => none

/-- What a call mentions itself. -/
def Head.mentions (head : Head) (args : Args) : List Mention :=
  (match head with
    | .symbol n => [.head n]
    | .inlined _ => []) ++ (args.spelled?.map (Mention.member head)).toList

mutual

/-- What an expression mentions, with the formulas that stand in it. -/
def Expr.mentions : Expr → List Mention
  | .const v => v.mentions
  | .symbol n => [.symbol n]
  | .call head args => head.mentions args ++ args.mentions
  | .missing => []
termination_by structural e => e

def Value.mentions : Value → List Mention
  | .formula head args _ _ => head.mentions args ++ args.mentions
  | _ => []
termination_by structural v => v

def Args.mentions : Args → List Mention
  | .nil => []
  | .cons e rest => e.mentions ++ rest.mentions
termination_by structural args => args

end

theorem Args.mem_mentions_iff {args : Args} {x : Mention} :
    x ∈ args.mentions ↔ ∃ e ∈ args.toList, x ∈ e.mentions := by
  cases args with
  | nil => simp [Args.mentions, Args.toList]
  | cons e rest => simp [Args.mentions, Args.toList, rest.mem_mentions_iff]

/-- The member that the operand spells is called `n` by the interner. -/
def Interner.Spells (j : Interner) (n : Name) : Expr → Prop
  | .symbol m => m = n
  | .const (.str text) => j.names.get? text = some n
  | _ => False

/-! ## What heads stand for -/

namespace State

/-- The head can be called as `c`: an inlined operator, or what some frame binds the name to. -/
def StandsFor (s : State) (c : Callable) : Head → Prop
  | .inlined p => c = .builtin p
  | .symbol name => ∃ e u, s.heap.local? e name = some u ∧ u.callable? = some c

/-- The head can make a call read a member: it stands for `$`, or for an override that leaves
its call to `$`, since base has that operator for `~`. -/
def ReadsMembers (s : State) (head : Head) : Prop :=
  s.StandsFor (.builtin .member) head ∨
    (baseTilde s).1 = .ok .member ∧ ∃ o, s.StandsFor (.override o) head

/-! ## Positions that do not read a name -/

variable {s : State} {j : Interner} {n : Name} {heads : Prop}

/-- The position does not read `n`, unless it is a head and `heads` allows it. The interner
`j` says which member a string stands for. -/
def Spares (s : State) (j : Interner) (n : Name) (heads : Prop) : Mention → Prop
  | .symbol m => m ≠ n
  | .head m => m = n → heads
  | .member head text => j.names.get? text = some n → ¬ s.ReadsMembers head

theorem spares_head {head : Head} {args : Args}
    (h : ∀ x ∈ head.mentions args, s.Spares j n heads x) (hhead : head = .symbol n) : heads := by
  subst hhead
  exact h (.head n) (List.mem_cons_self ..) rfl

/-- Where members are read, none of them is spelled like `n`. -/
theorem not_spells_of_spares {head : Head} {target member : Expr}
    (h : ∀ x ∈ head.mentions (.cons target (.cons member .nil)) ++
      (Args.cons target (.cons member .nil)).mentions, s.Spares j n heads x)
    (hreads : s.ReadsMembers head) : ¬ j.Spells n member := by
  rw [List.forall_mem_append] at h
  intro hspells
  cases member with
  | symbol m =>
    refine h.2 (.symbol m) ?_ hspells
    exact Args.mem_mentions_iff.2 ⟨.symbol m, by simp [Args.toList], List.mem_singleton_self _⟩
  | const v =>
    cases v with
    | str text =>
      refine h.1 (.member head text) ?_ hspells hreads
      exact List.mem_append_right _ (List.mem_singleton_self _)
    | _ => exact hspells
  | _ => exact hspells

end State

end Overscope
