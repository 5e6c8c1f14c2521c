import SchemaInference.Schema.Rendering
import SchemaInference.Schema.Shape

/-!
# Disagreements

The reasons for which schemas have no schema in common.
-/

namespace SchemaInference

/-- Something that is looked up where it is not. -/
inductive Fault where
  /-- The most frequent of no keys, or the first of no elements. -/
  | nothing
  /-- A part of a type that has no such part. -/
  | noPart (t : Schema)
  /-- A field of a record that does not have it. -/
  | noField (name : Text)

/-- What was looked up, if it was found. -/
def Fault.demand {α : Type} (fault : Fault) : Option α → Except Fault α
  | some a => .ok a
  | none => .error fault

def Fault.message : Fault → Text
  | nothing => "Nothing to choose from"
  | noPart t => "No such part in " ++ t.text
  | noField name => "No field '" ++ name ++ "'"

inductive Disagreement where
  /-- Two types of which neither is a record or a union do not agree. -/
  | incompatible (a b : Schema)
  /-- Two branches of different nature have one name. -/
  | sharedName (present added : Schema) (name : Text)
  /-- Two branches of one slot do not agree. -/
  | incompatibleBranches (present added : Schema) (reason : Disagreement)
  /-- Two branches of one slot agree on a union only. -/
  | nestedUnion (added : Schema)
  /-- A record among several shapes is no tagged wrapper. -/
  | indistinct (record : Record)
  /-- A field that two records share has types that do not agree. -/
  | incompatibleField (record field : Text) (reason : Disagreement)
  /-- The majority of types could not be told. -/
  | unresolved (fault : Fault)

namespace Disagreement

def message : Disagreement → Text
  | incompatible a b => "Cannot unify " ++ a.text ++ " with " ++ b.text
  | sharedName present added name =>
    "Union branches " ++ present.text ++ " and " ++ added.text ++ " share the name '" ++ name ++ "'"
  | incompatibleBranches present added reason =>
    "Union branches " ++ present.text ++ " and " ++ added.text ++ " cannot be combined ("
      ++ reason.message ++ ")"
  | nestedUnion added => "Union branch " ++ added.text ++ " would nest a union"
  | indistinct record =>
    "Record '" ++ record.name ++ "' with fields [" ++ Text.joinWith ", " record.names
      ++ "] cannot be told apart from the other shapes in a union"
  | incompatibleField record field reason =>
    "Field '" ++ field ++ "' of record '" ++ record ++ "' has incompatible types ("
      ++ reason.message ++ ")"
  | unresolved fault => fault.message

/-- The field whose types do not agree, where that is the disagreement. -/
def field? : Disagreement → Option Text
  | incompatibleField _ field _ => some field
  | _ => none

end Disagreement

/-- A way of bringing two schemas together. -/
abbrev Join := Schema → Schema → Except Disagreement Schema

end SchemaInference
