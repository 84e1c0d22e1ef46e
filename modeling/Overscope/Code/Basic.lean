-- Code is data: an expression can hold any value, and a value can hold code.
-- Environments are named by identity, so code is a finite tree whatever cycles
-- the environments form. What a piece of code keeps alive is worked out when the
-- piece is built, since one piece can stand in many places of a tree.
import Overscope.Name
import Overscope.Primitive

namespace Overscope

/-- The identity of an environment frame. -/
structure EnvId where
  index : Nat
deriving DecidableEq, Repr

/-- The head of a call. -/
inductive Head where
  /-- Resolved in the environment of the evaluation, so it can be overridden. -/
  | symbol (name : Name)
  /-- The operator itself, which is never looked up. -/
  | inlined (p : Primitive)
deriving DecidableEq, Repr

/-- Whether a list is a plain one or a data frame of columns. -/
inductive ListKind where
  | plain
  | dataFrame
deriving DecidableEq, Repr

/-- Whether a formula object is a plain formula or a quosure, that is, code
which evaluates itself inside an overscope. -/
inductive FormulaKind where
  | plain
  | quosure
deriving DecidableEq, Repr

/-- The override of `~` in a mask. It names the mask and the top frame without
keeping them alive, since it is stored inside the mask. -/
structure Override where
  mask : EnvId
  top : EnvId
deriving DecidableEq, Repr

/-- The environments of both lists. The ones in front are those that the second
list does not have, so that none comes twice. -/
def joinHandles (es fs : List EnvId) : List EnvId := es.foldr List.insert fs

mutual

/-- An expression. -/
inductive Expr where
  /-- An inlined value. -/
  | const (v : Value)
  | symbol (name : Name)
  | call (head : Head) (args : Args)
  /-- The empty operand. -/
  | missing
with
  /-- The environments that an expression keeps alive. -/
  @[computed_field] handles : Expr → List EnvId
  | .const v => v.handles
  | .symbol _ => []
  | .call _ args => args.handles
  | .missing => []

/-- The operands of a call. -/
inductive Args where
  | nil
  | cons (e : Expr) (rest : Args)
with
  /-- The environments that operands keep alive. -/
  @[computed_field] handles : Args → List EnvId
  | .nil => []
  | .cons e rest => joinHandles e.handles rest.handles

/-- A value. -/
inductive Value where
  | null
  /-- Stands for an operand that is not there. -/
  | missing
  | bool (b : Bool)
  | int (n : Int64)
  | float (x : Float)
  | str (s : String)
  | list (kind : ListKind) (entries : Entries)
  /-- Quoted code. -/
  | code (e : Expr)
  /-- A `~` call together with the environment that it was made in, if any. -/
  | formula (head : Head) (args : Args) (env : Option EnvId) (kind : FormulaKind)
  | env (e : EnvId)
  | builtin (p : Primitive)
  | override (t : Override)
  /-- The view of the data alone that a mask offers, and the wording for an absent
  name, which has the place of the name marked by `%s`. -/
  | pronoun (source : DataSource) (absence : String)
with
  /-- The environments that a value keeps alive. An override keeps none, it only
  names its frames. -/
  @[computed_field] handles : Value → List EnvId
  | .null => []
  | .missing => []
  | .bool _ => []
  | .int _ => []
  | .float _ => []
  | .str _ => []
  | .list _ entries => entries.handles
  | .code e => e.handles
  | .formula _ args env _ => joinHandles env.toList args.handles
  | .env e => [e]
  | .builtin _ => []
  | .override _ => []
  | .pronoun source _ => source.handles

/-- The entries of a list in their order, each with or without a name. -/
inductive Entries where
  | nil
  | cons (name : Option Name) (value : Value) (rest : Entries)
with
  /-- The environments that list entries keep alive. -/
  @[computed_field] handles : Entries → List EnvId
  | .nil => []
  | .cons _ value rest => joinHandles value.handles rest.handles

/-- The data that a pronoun reads: a list or a single frame. -/
inductive DataSource where
  | list (kind : ListKind) (entries : Entries)
  | env (e : EnvId)
with
  /-- The environments that data keeps alive. -/
  @[computed_field] handles : DataSource → List EnvId
  | .list _ entries => entries.handles
  | .env e => [e]

end

/-! ## Expressions -/

namespace Expr

/-- Whether the value of the expression can depend on an environment: symbols
and calls do, and so do inlined formula objects, which act as `~` calls. -/
def isSymbolic : Expr → Bool
  | .symbol _ => true
  | .call _ _ => true
  | .const (.formula _ _ _ _) => true
  | .const _ => false
  | .missing => false

def isMissing : Expr → Bool
  | .missing => true
  | _ => false

end Expr

/-! ## Operands -/

namespace Args

def toList : Args → List Expr
  | .nil => []
  | .cons e rest => e :: rest.toList

def ofList : List Expr → Args
  | [] => .nil
  | e :: es => .cons e (ofList es)

@[simp]
theorem toList_ofList (es : List Expr) : (ofList es).toList = es := by
  induction es with
  | nil => rfl
  | cons e es ih => rw [ofList, toList, ih]

@[simp]
theorem ofList_toList : ∀ args : Args, ofList args.toList = args
  | .nil => rfl
  | .cons e rest => by rw [toList, ofList, ofList_toList rest]

end Args

/-! ## Formula objects -/

/-- A formula object: a `~` call together with the environment that it was made
in, if any. -/
structure Formula where
  head : Head
  args : Args
  env : Option EnvId
  kind : FormulaKind

namespace Formula

/-- A quosure over `e`: a one-sided `~` call that evaluates itself. -/
def quosure (e : Expr) (env : Option EnvId) : Formula :=
  ⟨.symbol .tilde, .cons e .nil, env, .quosure⟩

def toValue (f : Formula) : Value := .formula f.head f.args f.env f.kind

def isQuosure (f : Formula) : Bool := f.kind = .quosure

/-- The right-hand side is the last operand. -/
def rhs? (f : Formula) : Option Expr := f.args.toList.getLast?

/-- Only a formula with two operands has a left-hand side. -/
def lhs? (f : Formula) : Option Expr :=
  match f.args.toList with
  | [lhs, _] => some lhs
  | _ => none

/-- Whether the formula is a quosure that stands for an absent operand. -/
def isMissingQuosure (f : Formula) : Bool :=
  f.isQuosure && (f.rhs?.map Expr.isMissing).getD true

def withHead (f : Formula) (head : Head) : Formula := { f with head }

end Formula

/-! ## Values -/

namespace Value

/-- The kind of a value, as error messages call it. -/
def typeName : Value → String
  | .null => "null"
  | .missing => "missing argument"
  | .bool _ => "logical"
  | .int _ => "integer"
  | .float _ => "double"
  | .str _ => "character"
  | .list .plain _ => "list"
  | .list .dataFrame _ => "data frame"
  | .code _ => "language"
  | .formula _ _ _ .plain => "formula"
  | .formula _ _ _ .quosure => "quosure"
  | .env _ => "environment"
  | .builtin _ => "primitive"
  | .override _ => "function"
  | .pronoun _ _ => "data pronoun"

/-- Whether the value can stand in the head of a call. -/
def isCallable : Value → Bool
  | .builtin _ => true
  | .override _ => true
  | _ => false

def isMissing : Value → Bool
  | .missing => true
  | _ => false

def env? : Value → Option EnvId
  | .env e => some e
  | _ => none

def formula? : Value → Option Formula
  | .formula head args own kind => some ⟨head, args, own, kind⟩
  | _ => none

theorem formula?_eq_some_iff {v : Value} {f : Formula} :
    v.formula? = some f ↔ v = f.toValue := by
  obtain ⟨head, args, own, kind⟩ := f
  cases v <;> simp [formula?, Formula.toValue]

/-- The formula object, if it is a quosure. -/
def quosure? (v : Value) : Option Formula := v.formula?.filter Formula.isQuosure

/-- Code for a value: quoted code is itself, any other value is inlined. -/
def toExpr : Value → Expr
  | .code e => e
  | v => .const v

end Value

end Overscope
