import SchemaInference.Schema.Basic

/-!
# Union branches

A branch of a union is known by its key: the kind of a primitive, the place of the
one unnamed array, or the name of a named array or a record.  A union lists its
branches in ascending order of their keys.  While a union is put together, branches
that may be combined share a slot; there the numeric kinds count as one.
-/

namespace SchemaInference

/-- What a branch of a union is known by. -/
inductive BranchLabel where
  | primitive (kind : Kind)
  | unnamedArray
  | named (name : Text)
  /-- A union; it is no branch, since unions do not nest. -/
  | nested
  deriving DecidableEq

namespace BranchLabel

/-- The group of a key in the order of branches: keywords, the unnamed array, then names. -/
def group : BranchLabel → Nat
  | primitive _ => 0
  | unnamedArray => 1
  | named _ => 2
  | nested => 3

/-- The name of a key, which orders the keys of one group. -/
def name : BranchLabel → Text
  | primitive kind => kind.keyword
  | named n => n
  | _ => []

/-- Whether the key `a` may stand before the key `b`. -/
def le (a b : BranchLabel) : Bool :=
  a.group < b.group || (a.group = b.group && a.name ≤ b.name)

end BranchLabel

/-- Where a branch is kept while a union is put together. -/
inductive Slot where
  /-- The place of all numeric kinds. -/
  | number
  | of (key : BranchLabel)
  deriving DecidableEq

/-- The name that two branches of one slot share. -/
def Slot.name : Slot → Text
  | number => "number"
  | of key => key.name

namespace Schema

def branchLabel : Schema → BranchLabel
  | .primitive kind => .primitive kind
  | .array none _ => .unnamedArray
  | .array (some name) _ => .named name
  | .record name _ => .named name
  | .union _ => .nested

def slot : Schema → Slot
  | .primitive kind => if kind.isNumeric then .number else .of (.primitive kind)
  | s => .of s.branchLabel

/-- The schemas that a schema contributes to a union: its own branches, or itself. -/
def branches : Schema → List Schema
  | .union bs => bs
  | s => [s]

/-- The union of the given schemas, with branches in order and none of them a union. -/
def unionOf (members : List Schema) : Schema :=
  .union ((members.flatMap branches).mergeSort fun a b => a.branchLabel.le b.branchLabel)

end Schema

end SchemaInference
