-- The ways in which an evaluation fails, and the one wording of each.
namespace Overscope

/-- What is wrong with the parts or the data offered for a data mask. -/
inductive MaskDefect where
  /-- The top frame is not on the chain of the bottom frame. -/
  | topOffChain
  /-- A list that has entries, but none with a usable name. -/
  | unnamed
  /-- A list with one usable name on two entries. -/
  | duplicated
  /-- A value of a kind that holds no variables. -/
  | unsupported (typeName : String)
  | other (reason : String)
deriving DecidableEq, Repr

/-- Why an evaluation failed. -/
inductive EvalError where
  | undefinedVariable (name : String)
  | undefinedFunction (name : String)
  | notCallable (typeName : String)
  | typeMismatch (expected got : String)
  | wrongArgCount (name expected : String) (got : Nat)
  | divisionByZero
  | integerOverflow (operation : String)
  | recursionLimit (limit : Nat)
  /-- A pronoun has no such member. The wording has a place for the name. -/
  | absentFromData (wording name : String)
  | invalidDataMask (defect : MaskDefect)
  /-- An override of `~` outlived its mask. -/
  | maskDropped
  /-- A new parent link would close a cycle. -/
  | cyclicScope
  /-- The top frame is not on the chain of the overscope. -/
  | notAnAncestor
deriving DecidableEq, Repr

/-- The wording with `name` in the first place marked `%s`, if there is one. -/
def fillPlace (name : List Char) : List Char → List Char
  | '%' :: 's' :: rest => name ++ rest
  | c :: rest => c :: fillPlace name rest
  | [] => []

def MaskDefect.message : MaskDefect → String
  | .topOffChain => "Can't create data mask because `top` is not an ancestor of `bottom`"
  | .unnamed => "`data` must be uniquely named but does not have names"
  | .duplicated => "`data` must be uniquely named but has duplicate elements"
  | .unsupported typeName =>
    "`data` must be a list, data frame, or environment, not " ++ typeName
  | .other reason => reason

def EvalError.message : EvalError → String
  | .undefinedVariable name => "object `" ++ name ++ "` not found"
  | .undefinedFunction name => "could not find function `" ++ name ++ "`"
  | .notCallable typeName => typeName ++ " is not callable"
  | .typeMismatch expected got => "type mismatch: expected " ++ expected ++ ", got " ++ got
  | .wrongArgCount name expected got =>
    "`" ++ name ++ "` expects " ++ expected ++ ", got " ++ toString got
  | .divisionByZero => "division by zero"
  | .integerOverflow operation => "integer overflow in " ++ operation
  | .recursionLimit limit =>
    "maximum recursion depth exceeded (limit: " ++ toString limit ++ ")"
  | .absentFromData wording name => String.ofList (fillPlace name.toList wording.toList)
  | .invalidDataMask defect => defect.message
  | .maskDropped =>
    "tilde evaluation requires a live data mask, but the mask was dropped"
  | .cyclicScope => "re-parenting would make an environment its own ancestor"
  | .notAnAncestor => "overscope top is not an ancestor of the overscope"

end Overscope
