import SchemaInference.Schema.Basic

/-!
# Shapes

Coarser views of schemas: the family that a schema belongs to, the set of field
names of a record, and the test whether two schemas differ in nothing but the width
of their numeric kinds.
-/

namespace SchemaInference

/-- The families among which a majority is sought. -/
inductive Family where
  | number
  | null
  | boolean
  | string
  | array
  | record
  | union
  deriving DecidableEq, Repr

def Family.word : Family → String
  | number => "number"
  | null => "null"
  | boolean => "boolean"
  | string => "string"
  | array => "array"
  | record => "record"
  | union => "union"

/-- The family of a schema; all numeric kinds are of one family. -/
def Schema.family : Schema → Family
  | .primitive .null => .null
  | .primitive .boolean => .boolean
  | .primitive .string => .string
  | .primitive _ => .number
  | .array .. => .array
  | .record .. => .record
  | .union _ => .union

/-- Puts a name into an ascending list of names unless it is there. -/
def insertName (name : Text) : List Text → List Text
  | [] => [name]
  | other :: rest =>
    if name < other then name :: other :: rest
    else if name = other then other :: rest
    else other :: insertName name rest

/-- The names of a list of fields, ascending and each once. -/
def fieldNames (fields : List (Text × Schema)) : List Text :=
  fields.foldr (fun f names => insertName f.1 names) []

/-- The field names of a record, ascending and each once. -/
def Record.names (r : Record) : List Text := fieldNames r.fields

/-- Whether two records may describe the same thing: they share a field, or one is empty. -/
def Record.overlaps (a b : Record) : Bool :=
  a.fields.isEmpty || b.fields.isEmpty || a.fields.any fun f => (b.field? f.1).isSome

/-- Whether two kinds are equal or both numeric. -/
def Kind.sameUpToWidth (k l : Kind) : Bool := k = l || (k.isNumeric && l.isNumeric)

namespace Schema

mutual

/-- Whether two schemas differ at most in the width of numeric kinds. -/
def sameUpToWidth : Schema → Schema → Bool
  | .primitive k, b => match b with
    | .primitive l => k.sameUpToWidth l
    | _ => false
  | .array n s, b => match b with
    | .array m t => n = m && sameUpToWidth s t
    | _ => false
  | .record n fs, b => match b with
    | .record m gs => n = m && fieldNames fs = fieldNames gs && sameFieldsUpToWidth fs gs
    | _ => false
  | .union ss, b => match b with
    | .union ts => sameBranchesUpToWidth ss ts
    | _ => false

/-- Whether the types of two field lists have the same shape, position by position. -/
def sameFieldsUpToWidth : List (Text × Schema) → List (Text × Schema) → Bool
  | [], _ => true
  | (_, s) :: fs, gs => match gs with
    | [] => true
    | (_, t) :: gs => sameUpToWidth s t && sameFieldsUpToWidth fs gs

/-- Whether two branch lists are equally long and have the same shapes, position by position. -/
def sameBranchesUpToWidth : List Schema → List Schema → Bool
  | [], ts => ts.isEmpty
  | s :: ss, ts => match ts with
    | [] => false
    | t :: ts => sameUpToWidth s t && sameBranchesUpToWidth ss ts

end

end Schema

end SchemaInference
