import SchemaInference.Join.Union

/-!
# Strict joins

The least type that holds the values of two types: null is neutral, numbers widen,
arrays join by their items, records that overlap merge, and types that cannot be one
type form a union.  Every rule is stated in terms of a join for smaller types, and
`joinWithin` ties them together by the height of the types: the join of a level serves
the types whose height is below that level.
-/

namespace SchemaInference.Strict

/-- The distinct types of a list without null, in the order of their first occurrence. -/
def candidates (ts : List Schema) : List Schema := ts.eraseDups.filter (· ≠ .null)

/-- Joins records into their one cluster, or else into a union. -/
def joinRecords (j : Join) (rs : List Record) : Except Disagreement Schema :=
  match Record.clusters j rs with
  | .error reason => .error reason
  | .ok [r] => .ok r.schema
  | .ok _ => assembleUnion j (rs.map Record.schema)

/-- Joins distinct types other than null. -/
def joinCandidates (j : Join) (ts : List Schema) : Except Disagreement Schema :=
  if ts.any Schema.isCompound then
    match ts.mapM Schema.record? with
    | some rs => joinRecords j rs
    | none => assembleUnion j ts
  else joinList (joinPlain .strict j) ts

def joinAllWith (j : Join) (ts : List Schema) : Except Disagreement Schema :=
  joinCandidates j (candidates ts)

/-- Joins two types, given a join for their parts. -/
def joinWith (j : Join) : Join := fun a b =>
  if a = b then .ok a
  else if a = .null then .ok b
  else if b = .null then .ok a
  else if a.isCompound || b.isCompound then joinAllWith j [a, b]
  else joinPlain .strict j a b

/-- The join for types whose height is below a level. -/
def joinWithin : Nat → Join
  | 0 => fun a b => .error (.incompatible a b)
  | level + 1 => joinWith (joinWithin level)

def join : Join := fun a b => joinWithin (max a.height b.height + 1) a b

end SchemaInference.Strict
