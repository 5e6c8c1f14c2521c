import SchemaInference.Text.Basic

/-!
# JSON values

The documents from which schemas are inferred.  An object keeps its members in
the order in which their names first appear; a member that is given again keeps
its place and takes the later value.  A number is an integer exactly when it is
written without fraction and exponent, so integers carry their value while every
other number carries the literal it was written as.
-/

namespace SchemaInference

inductive Scalar where
  | null
  | bool (value : Bool)
  | integer (value : Int)
  | real (literal : Text)
  | string (value : Text)
  deriving DecidableEq, Repr

inductive Json where
  | scalar (value : Scalar)
  | array (elements : List Json)
  | object (members : List (Text × Json))
  deriving Inhabited

namespace Json

/-- The JSON string holding `s`. -/
def string (s : Text) : Json := .scalar (.string s)

/-- The JSON number without fraction holding `n`. -/
def integer (n : Int) : Json := .scalar (.integer n)

end Json

end SchemaInference
