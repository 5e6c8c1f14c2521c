import SchemaInference.Disagreement

/-!
# Merging records

Two records merge field by field.  The records of a list are merged into clusters so
that no two of the results overlap.  How the types of a shared field are brought
together is left to a join, which is only used on field types.
-/

namespace SchemaInference.Record

/-- Adds fields to the fields of a record called `owner`, joining the types of those it has. -/
def mergeFields (j : Join) (owner : Text) (present : List (Text × Schema)) :
    List (Text × Schema) → Except Disagreement (List (Text × Schema))
  | [] => .ok present
  | (name, t) :: rest =>
    match present.lookup name with
    | none => mergeFields j owner (putField name t present) rest
    | some s =>
      match j s t with
      | .ok joined => mergeFields j owner (putField name joined present) rest
      | .error reason => .error (.incompatibleField owner name reason)

/-- The record with the fields of both records, under the name of the first. -/
def merge (j : Join) (a b : Record) : Except Disagreement Record :=
  (mergeFields j a.name (sortFields a.fields) b.fields).map (⟨a.name, ·⟩)

/--
Merges a record with each cluster that it overlaps, as grown so far.  Gives the
clusters that were left out and the merged record.
-/
def absorb (j : Join) (r : Record) : List Record → Except Disagreement (List Record × Record)
  | [] => .ok ([], r)
  | c :: rest =>
    if c.overlaps r then
      match c.merge j r with
      -- the clusters still to come are compared with the merge, not with `r`
      | .ok merged => absorb j merged rest
      | .error reason => .error reason
    else
      match absorb j r rest with
      | .ok (others, merged) => .ok (c :: others, merged)
      | .error reason => .error reason

def addToClusters (j : Join) (present : List Record) (r : Record) :
    Except Disagreement (List Record) :=
  match absorb j r present with
  | .ok (others, merged) => .ok (others ++ [merged])
  | .error reason => .error reason

def clusters (j : Join) (rs : List Record) : Except Disagreement (List Record) :=
  rs.foldlM (addToClusters j) []

end SchemaInference.Record
