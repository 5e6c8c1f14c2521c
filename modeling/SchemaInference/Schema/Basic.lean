import SchemaInference.Text.Basic

/-!
# Schemas

The types that describe JSON documents: primitive kinds, arrays, records with
named fields, and unions.  Records list their fields in ascending order of their
names, each name once; `Record.ofFields` builds such a record from fields in any
order.  An array carries a name only where it stands for a branch of a union that
was unpacked from a tagged wrapper.
-/

namespace SchemaInference

/-- The kinds of values without parts. -/
inductive Kind where
  | null
  | boolean
  | int
  | long
  | double
  | string
  deriving DecidableEq, Repr

namespace Kind

def keyword : Kind → Text
  | null => "null"
  | boolean => "boolean"
  | int => "int"
  | long => "long"
  | double => "double"
  | string => "string"

/-- Every kind, once. -/
def all : List Kind := [null, boolean, int, long, double, string]

def ofKeyword? (word : Text) : Option Kind := all.find? (·.keyword = word)

/-- How wide a numeric kind is; the other kinds have no width. -/
def width? : Kind → Option Nat
  | int => some 0
  | long => some 1
  | double => some 2
  | _ => none

def isNumeric (k : Kind) : Bool := k.width?.isSome

def widest (k l : Kind) : Kind := if k.width?.getD 0 < l.width?.getD 0 then l else k

@[simp] theorem ofKeyword?_keyword (k : Kind) : ofKeyword? k.keyword = some k := by
  cases k <;> decide

theorem keyword_injective {k l : Kind} (h : k.keyword = l.keyword) : k = l := by
  have found := congrArg ofKeyword? h
  rw [ofKeyword?_keyword, ofKeyword?_keyword] at found
  exact Option.some.inj found

theorem keyword_of_ofKeyword? {word : Text} {k : Kind} (h : ofKeyword? word = some k) :
    k.keyword = word := by
  simpa using List.find?_some h

end Kind

inductive Schema where
  | primitive (kind : Kind)
  | array (name : Option Text) (items : Schema)
  | record (name : Text) (fields : List (Text × Schema))
  | union (branches : List Schema)

namespace Schema

instance : Inhabited Schema := ⟨.primitive .null⟩

/-- The type of documents about which nothing is known yet. -/
abbrev null : Schema := .primitive .null

mutual

/-- Equality of schemas as a test. -/
def same : Schema → Schema → Bool
  | .primitive k, b => match b with
    | .primitive l => decide (k = l)
    | _ => false
  | .array n s, b => match b with
    | .array m t => decide (n = m) && same s t
    | _ => false
  | .record n fs, b => match b with
    | .record m gs => decide (n = m) && sameFields fs gs
    | _ => false
  | .union ss, b => match b with
    | .union ts => sameBranches ss ts
    | _ => false

def sameFields : List (Text × Schema) → List (Text × Schema) → Bool
  | [], gs => gs.isEmpty
  | (f, s) :: fs, gs => match gs with
    | [] => false
    | (g, t) :: gs => decide (f = g) && same s t && sameFields fs gs

def sameBranches : List Schema → List Schema → Bool
  | [], ts => ts.isEmpty
  | s :: ss, ts => match ts with
    | [] => false
    | t :: ts => same s t && sameBranches ss ts

end

mutual

theorem same_iff : ∀ a b : Schema, same a b = true ↔ a = b
  | .primitive k, b => by cases b <;> simp [same]
  | .array n s, b => by
      cases b with
      | array m t => simp [same, same_iff s t]
      | _ => simp [same]
  | .record n fs, b => by
      cases b with
      | record m gs => simp [same, sameFields_iff fs gs]
      | _ => simp [same]
  | .union ss, b => by
      cases b with
      | union ts => simp [same, sameBranches_iff ss ts]
      | _ => simp [same]

theorem sameFields_iff : ∀ fs gs : List (Text × Schema), sameFields fs gs = true ↔ fs = gs
  | [], gs => by cases gs <;> simp [sameFields]
  | (f, s) :: fs, gs => by
      cases gs with
      | nil => simp [sameFields]
      | cons g gs =>
        obtain ⟨g, t⟩ := g
        simp [sameFields, same_iff s t, sameFields_iff fs gs]

theorem sameBranches_iff : ∀ ss ts : List Schema, sameBranches ss ts = true ↔ ss = ts
  | [], ts => by cases ts <;> simp [sameBranches]
  | s :: ss, ts => by
      cases ts with
      | nil => simp [sameBranches]
      | cons t ts => simp [sameBranches, same_iff s t, sameBranches_iff ss ts]

end

instance : DecidableEq Schema := fun a b => decidable_of_iff _ (same_iff a b)

mutual

/-- The nesting depth of a schema; a union is as high as its highest branch. -/
def height : Schema → Nat
  | .primitive _ => 0
  | .array _ items => items.height + 1
  | .record _ fields => fieldsHeight fields + 1
  | .union branches => branchesHeight branches

def fieldsHeight : List (Text × Schema) → Nat
  | [] => 0
  | (_, t) :: rest => max t.height (fieldsHeight rest)

def branchesHeight : List Schema → Nat
  | [] => 0
  | t :: rest => max t.height (branchesHeight rest)

end

/-- Whether a schema is a record or a union, the types that join as members of a collection. -/
def isCompound : Schema → Bool
  | .record .. | .union _ => true
  | _ => false

end Schema

/-- A record type: a name and fields in ascending order of their names. -/
structure Record where
  name : Text
  fields : List (Text × Schema)
  deriving DecidableEq

namespace Record

def schema (r : Record) : Schema := .record r.name r.fields

/-- Gives field `name` the type `t`, keeping ascending fields ascending. -/
def putField (name : Text) (t : Schema) : List (Text × Schema) → List (Text × Schema)
  | [] => [(name, t)]
  | (other, s) :: rest =>
    if name < other then (name, t) :: (other, s) :: rest
    else if name = other then (name, t) :: rest
    else (other, s) :: putField name t rest

/-- The fields of a list in ascending order; of two with one name the later counts. -/
def sortFields (fields : List (Text × Schema)) : List (Text × Schema) :=
  fields.foldl (fun sorted f => putField f.1 f.2 sorted) []

/-- The record with the given fields, which may come in any order. -/
def ofFields (name : Text) (fields : List (Text × Schema)) : Record :=
  ⟨name, sortFields fields⟩

def field? (r : Record) (name : Text) : Option Schema := r.fields.lookup name

end Record

def Schema.record? : Schema → Option Record
  | .record name fields => some ⟨name, fields⟩
  | _ => none

@[simp] theorem Record.record?_schema (r : Record) : r.schema.record? = some r := rfl

theorem Schema.record?_eq_none {s : Schema} (plain : s.isCompound = false) : s.record? = none := by
  cases s with
  | record => cases plain
  | _ => rfl

theorem Record.schema_ne_null (r : Record) : r.schema ≠ .null := by
  intro eq
  cases eq

theorem Record.schema_injective {a b : Record} (h : a.schema = b.schema) : a = b := by
  simpa using congrArg Schema.record? h

theorem Schema.schema_of_record? {s : Schema} {r : Record} (h : s.record? = some r) :
    r.schema = s := by
  cases s with
  | record name fields => cases h; rfl
  | _ => cases h

theorem Schema.mem_filterMap_record? {ts : List Schema} {r : Record} :
    r ∈ ts.filterMap Schema.record? ↔ r.schema ∈ ts := by
  rw [List.mem_filterMap]
  constructor
  · intro found
    obtain ⟨t, ht, found⟩ := found
    rwa [Schema.schema_of_record? found]
  · intro hr
    exact ⟨r.schema, hr, rfl⟩

end SchemaInference
