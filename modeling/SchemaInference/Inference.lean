import SchemaInference.Failure
import SchemaInference.Json.Value
import SchemaInference.Join

/-!
# Inferring the schema of a document

Scalars have a kind, objects become records, and the types of the elements of an array
are joined.  A record below the root is named after the nearest key above it, elements
of an array keeping the name of the array.  The document is walked in the order in
which it is written, and the first failure ends the walk.
-/

namespace SchemaInference

structure Settings where
  mode : Mode := .strict
  /-- The depth below which no value may stand, the root standing at depth zero. -/
  maxDepth : Int := 100

/-- The kind of a scalar: an integer has the narrowest kind that holds it. -/
def Scalar.kind (mode : Mode) : Scalar → Except Failure Kind
  | .null => .ok .null
  | .bool _ => .ok .boolean
  | .real _ => .ok .double
  | .string _ => .ok .string
  | .integer n =>
    if -0x80000000 ≤ n ∧ n < 0x80000000 then .ok .int
    else if -0x8000000000000000 ≤ n ∧ n < 0x8000000000000000 then .ok .long
    else match mode with
      | .lenient => .ok .double
      | .strict => .error (.outOfRange n)

def memberPath (path key : Text) : Text := path ++ "." ++ key

def elementPath (path : Text) (index : Nat) : Text := path ++ s!"[{index}]"

/-- An outcome whose failure, if there is one, is located at `path`. -/
def locate {α : Type} (path : Text) : Except Failure α → Except (Located Failure) α
  | .ok a => .ok a
  | .error failure => .error ((Located.mk failure none).atPath path)

/-- Fails at `path` unless a condition holds. -/
def require (condition : Bool) (failure : Failure) (path : Text) :
    Except (Located Failure) Unit :=
  if condition then .ok () else locate path (.error failure)

mutual

/--
The type of the value at `path` and `depth`, where `name` is the name of a record at
this place.
-/
def infer (settings : Settings) (name path : Text) (depth : Int) :
    Json → Except (Located Failure) Schema
  | .scalar s => do
    require (depth ≤ settings.maxDepth) (.tooDeep settings.maxDepth) path
    let kind ← locate path (s.kind settings.mode)
    return .primitive kind
  | .object members => do
    require (depth ≤ settings.maxDepth) (.tooDeep settings.maxDepth) path
    require (name ≠ []) .emptyRecordName path
    let fields ← inferMembers settings path depth members
    return (Record.ofFields name fields).schema
  | .array elements => do
    require (depth ≤ settings.maxDepth) (.tooDeep settings.maxDepth) path
    -- records among the elements have the name that one in place of the array would have
    let types ← inferElements settings name path depth 0 elements
    let items ← locate path ((joinAll settings.mode types).mapError .disagreement)
    return .array none items

/-- The fields for the members of the object at `path` and `depth`. -/
def inferMembers (settings : Settings) (path : Text) (depth : Int) :
    List (Text × Json) → Except (Located Failure) (List (Text × Schema))
  | [] => .ok []
  | (key, v) :: rest => do
    require (key ≠ []) .emptyFieldName path
    let t ← infer settings key (memberPath path key) (depth + 1) v
    let fields ← inferMembers settings path depth rest
    return (key, t) :: fields

/-- The types of the elements from `index` on of the array at `path` and `depth`. -/
def inferElements (settings : Settings) (name path : Text) (depth : Int) (index : Nat) :
    List Json → Except (Located Failure) (List Schema)
  | [] => .ok []
  | v :: rest => do
    let t ← infer settings name (elementPath path index) (depth + 1) v
    let types ← inferElements settings name path depth (index + 1) rest
    return t :: types

end

/-- The path of a root: the given path, or its name if there is none. -/
def rootPath (name : Text) : Option Text → Text
  | none | some [] => name
  | some path => path

/-- The type of a document whose root record is called `name`. -/
def inferDocument (settings : Settings) (name : Text) (v : Json) :
    Except (Located Failure) Schema :=
  infer settings name name 0 v

end SchemaInference
