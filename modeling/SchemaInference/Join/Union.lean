import SchemaInference.Join.Records
import SchemaInference.Keyed
import SchemaInference.Mode
import SchemaInference.Schema.Branch

/-!
# Putting unions together

Types that have no join of their own can share a union.  Primitives and arrays must
join among themselves and give one branch.  Records are clustered; if several clusters
remain, each must be a tagged wrapper, an object whose one key names the branch that
its value belongs to, and is unpacked into that branch.  A cluster that stands alone
becomes a branch itself, unless it wraps a branch that is there already.

All functions take the join that is used for parts of the given types.
-/

namespace SchemaInference

/-- The kind on which two kinds agree; a lenient join reads a boolean as a number. -/
def Kind.join? (mode : Mode) (k l : Kind) : Option Kind :=
  if k = l then some k
  else if k.isNumeric && l.isNumeric then some (k.widest l)
  else match mode with
    | .strict => none
    | .lenient =>
      if k = .boolean && l.isNumeric then some l
      else if l = .boolean && k.isNumeric then some k
      else none

/-- The join of two types of which neither is a record or a union. -/
def joinPlain (mode : Mode) (j : Join) : Join
  | .primitive k, .primitive l =>
    match k.join? mode l with
    | some joined => .ok (.primitive joined)
    | none => .error (.incompatible (.primitive k) (.primitive l))
  | .array n s, .array m t => (j s t).map (.array (if n = m then n else none))
  | a, b => .error (.incompatible a b)

/-- Joins a list from left to right; an empty list gives null. -/
def joinList (j : Join) : List Schema → Except Disagreement Schema
  | [] => .ok .null
  | t :: rest => rest.foldlM j t

/-- Whether every value of kind `k` is a value of kind `l`, null being a value of every kind. -/
def Kind.fits (k l : Kind) : Bool :=
  k = l || k = .null || (k.isNumeric && l.isNumeric && k.widest l = l)

/-- The branch that a record stands for if it is a tagged wrapper. -/
def Record.wrapped? (r : Record) : Option Schema :=
  match r.fields with
  | [(tag, .primitive kind)] =>
    match Kind.ofKeyword? tag with
    | some wrapped => if kind.fits wrapped then some (.primitive wrapped) else none
    | none => none
  | [(tag, .array _ items)] => some (.array (some tag) items)
  | [(_, .record name fields)] => some (.record name fields)
  | _ => none

/-- The branches of a union that is being put together, under their slots. -/
abbrev BranchTable := List (Slot × Schema)

namespace BranchTable

/-- Puts the type on which two branches of a slot agree in place of the present one. -/
def settle (table : BranchTable) (slot : Slot) (present added : Schema) :
    Except Disagreement Schema → Except Disagreement BranchTable
  | .error reason => .error (.incompatibleBranches present added reason)
  | .ok (.union _) => .error (.nestedUnion added)
  | .ok joined => .ok (Keyed.put slot joined table)

/-- Adds a branch, joining it with the branch that holds its slot. -/
def add (j : Join) (table : BranchTable) (added : Schema) : Except Disagreement BranchTable :=
  match Keyed.get? added.slot table with
  | none => .ok (Keyed.put added.slot added table)
  | some present =>
    match present, added with
    | .primitive .., .primitive .. | .array .., .array .. =>
      settle table added.slot present added (joinPlain .strict j present added)
    | .record .., .record .. => settle table added.slot present added (j present added)
    | _, _ => .error (.sharedName present added added.slot.name)

def addWrapped (j : Join) (table : BranchTable) (r : Record) : Except Disagreement BranchTable :=
  match r.wrapped? with
  | some branch => table.add j branch
  | none => .error (.indistinct r)

/-- What the only cluster adds: the branch that it wraps if its slot is held, else itself. -/
def soleBranch (table : BranchTable) (r : Record) : Schema :=
  match r.wrapped? with
  | some branch => if (Keyed.get? branch.slot table).isSome then branch else r.schema
  | none => r.schema

def addClusters (j : Join) (table : BranchTable) : List Record → Except Disagreement BranchTable
  | [r] => table.add j (table.soleBranch r)
  -- of several clusters each has to say by its tag which branch it is
  | rs => rs.foldlM (addWrapped j) table

/-- The type of a complete table: null, the only branch, or the union of the branches. -/
def schema (table : BranchTable) : Schema :=
  match table.map Prod.snd with
  | [] => .null
  | [branch] => branch
  | branches => .unionOf branches

end BranchTable

/-- The branches of unions and the records among the candidates of a union. -/
def compoundParts (candidates : List Schema) : List Schema :=
  (candidates.filter Schema.isCompound).flatMap Schema.branches

/-- The primitives and arrays among the candidates of a union. -/
def plainParts (candidates : List Schema) : List Schema :=
  candidates.filter fun c => !c.isCompound && c ≠ .null

/-- The one branch on which the plain candidates agree, or none if there are no such candidates. -/
def plainBranch (j : Join) (candidates : List Schema) : Except Disagreement (List Schema) :=
  match plainParts candidates with
  | [] => .ok []
  | parts => (joinList (joinPlain .strict j) parts).map ([·])

/-- The union that holds all candidates, or the one branch that holds them. -/
def assembleUnion (j : Join) (candidates : List Schema) : Except Disagreement Schema := do
  let plain ← plainBranch j candidates
  let parts := compoundParts candidates ++ plain
  let clusters ← Record.clusters j (parts.filterMap Schema.record?)
  -- the records come last: whether one is unpacked depends on the slots that are held
  let table ← (parts.filter fun p => p.record?.isNone).foldlM (BranchTable.add j) []
  let table ← table.addClusters j clusters
  return table.schema

end SchemaInference
