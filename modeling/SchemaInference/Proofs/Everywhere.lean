import SchemaInference.Proofs.Fields

/-!
# Properties of every part of a schema

`Everywhere p` says that `p` holds of a schema and of all schemas inside it.  A schema
is canonical if all its records list their fields in ascending order, as the records
that inference builds do.
-/

namespace SchemaInference.Schema

mutual

/-- Induction over the parts of a schema. -/
@[elab_as_elim]
theorem induction_parts {motive : Schema → Prop}
    (primitive : ∀ kind, motive (.primitive kind))
    (array : ∀ name items, motive items → motive (.array name items))
    (record : ∀ name fields, (∀ f t, (f, t) ∈ fields → motive t) → motive (.record name fields))
    (union : ∀ branches, (∀ b ∈ branches, motive b) → motive (.union branches)) :
    ∀ t : Schema, motive t
  | .primitive kind => primitive kind
  | .array name items => array name items (induction_parts primitive array record union items)
  | .record name fields =>
    record name fields (induction_fields primitive array record union fields)
  | .union branches =>
    union branches (induction_branches primitive array record union branches)

theorem induction_fields {motive : Schema → Prop}
    (primitive : ∀ kind, motive (.primitive kind))
    (array : ∀ name items, motive items → motive (.array name items))
    (record : ∀ name fields, (∀ f t, (f, t) ∈ fields → motive t) → motive (.record name fields))
    (union : ∀ branches, (∀ b ∈ branches, motive b) → motive (.union branches)) :
    ∀ (fields : List (Text × Schema)) f t, (f, t) ∈ fields → motive t
  | [], _, _, hmem => nomatch hmem
  | (g, s) :: rest, f, t, hmem => by
      rcases List.mem_cons.1 hmem with heq | hmem
      · cases heq; exact induction_parts primitive array record union s
      · exact induction_fields primitive array record union rest f t hmem

theorem induction_branches {motive : Schema → Prop}
    (primitive : ∀ kind, motive (.primitive kind))
    (array : ∀ name items, motive items → motive (.array name items))
    (record : ∀ name fields, (∀ f t, (f, t) ∈ fields → motive t) → motive (.record name fields))
    (union : ∀ branches, (∀ b ∈ branches, motive b) → motive (.union branches)) :
    ∀ (branches : List Schema), ∀ b ∈ branches, motive b
  | [], _, hmem => nomatch hmem
  | c :: rest, b, hmem => by
      rcases List.mem_cons.1 hmem with heq | hmem
      · cases heq; exact induction_parts primitive array record union c
      · exact induction_branches primitive array record union rest b hmem

end

mutual

/-- Whether `p` holds of a schema and of every schema inside it. -/
def Everywhere (p : Schema → Prop) : Schema → Prop
  | .primitive kind => p (.primitive kind)
  | .array name items => p (.array name items) ∧ Everywhere p items
  | .record name fields => p (.record name fields) ∧ EverywhereFields p fields
  | .union branches => p (.union branches) ∧ EverywhereBranches p branches

def EverywhereFields (p : Schema → Prop) : List (Text × Schema) → Prop
  | [] => True
  | (_, t) :: rest => Everywhere p t ∧ EverywhereFields p rest

def EverywhereBranches (p : Schema → Prop) : List Schema → Prop
  | [] => True
  | t :: rest => Everywhere p t ∧ EverywhereBranches p rest

end

section Everywhere
variable {p : Schema → Prop}

theorem everywhere_primitive {kind : Kind} :
    Everywhere p (.primitive kind) ↔ p (.primitive kind) := by
  rw [Everywhere]

theorem everywhere_array {name : Option Text} {items : Schema} :
    Everywhere p (.array name items) ↔ p (.array name items) ∧ Everywhere p items := by
  rw [Everywhere]

theorem everywhere_record {name : Text} {fields : List (Text × Schema)} :
    Everywhere p (.record name fields) ↔
      p (.record name fields) ∧ ∀ f t, (f, t) ∈ fields → Everywhere p t := by
  have parts : EverywhereFields p fields ↔ ∀ f t, (f, t) ∈ fields → Everywhere p t := by
    induction fields with
    | nil => simp [EverywhereFields]
    | cons entry rest ih =>
      obtain ⟨g, s⟩ := entry
      constructor
      · rintro ⟨hs, hrest⟩ f t hmem
        rcases List.mem_cons.1 hmem with heq | hmem
        · cases heq; exact hs
        · exact ih.1 hrest f t hmem
      · intro h
        exact ⟨h g s List.mem_cons_self, ih.2 fun f t hmem => h f t (List.mem_cons_of_mem _ hmem)⟩
  rw [Everywhere, parts]

theorem everywhere_union {branches : List Schema} :
    Everywhere p (.union branches) ↔
      p (.union branches) ∧ ∀ b ∈ branches, Everywhere p b := by
  have parts : EverywhereBranches p branches ↔ ∀ b ∈ branches, Everywhere p b := by
    induction branches with
    | nil => simp [EverywhereBranches]
    | cons b rest ih => simp [EverywhereBranches, ih]
  rw [Everywhere, parts]

theorem Everywhere.self {t : Schema} (h : Everywhere p t) : p t := by
  cases t with
  | primitive kind => exact everywhere_primitive.1 h
  | array name items => exact (everywhere_array.1 h).1
  | record name fields => exact (everywhere_record.1 h).1
  | union branches => exact (everywhere_union.1 h).1

theorem Everywhere.items {name : Option Text} {items : Schema}
    (h : Everywhere p (.array name items)) : Everywhere p items :=
  (everywhere_array.1 h).2

theorem Everywhere.field {name f : Text} {fields : List (Text × Schema)} {t : Schema}
    (h : Everywhere p (.record name fields)) (found : fields.lookup f = some t) :
    Everywhere p t :=
  (everywhere_record.1 h).2 f t (mem_of_lookup found)

theorem Everywhere.branch {branches : List Schema} {b : Schema}
    (h : Everywhere p (.union branches)) (hb : b ∈ branches) : Everywhere p b :=
  (everywhere_union.1 h).2 b hb

theorem Everywhere.imp {q : Schema → Prop} {t : Schema} (h : Everywhere p t)
    (weaker : ∀ s, p s → q s) : Everywhere q t := by
  induction t using induction_parts with
  | primitive kind => exact everywhere_primitive.2 (weaker _ h.self)
  | array name items ih => exact everywhere_array.2 ⟨weaker _ h.self, ih h.items⟩
  | record name fields ih =>
    refine everywhere_record.2 ⟨weaker _ h.self, fun f t hmem => ih f t hmem ?_⟩
    exact (everywhere_record.1 h).2 f t hmem
  | union branches ih =>
    exact everywhere_union.2 ⟨weaker _ h.self, fun b hb => ih b hb (h.branch hb)⟩

end Everywhere

section Decidable
variable {p : Schema → Prop} [DecidablePred p]

mutual

def decidableEverywhere : (t : Schema) → Decidable (Everywhere p t)
  | .primitive kind => inferInstanceAs (Decidable (p (.primitive kind)))
  | .array name items =>
    have := decidableEverywhere items
    inferInstanceAs (Decidable (p (.array name items) ∧ Everywhere p items))
  | .record name fields =>
    have := decidableEverywhereFields fields
    inferInstanceAs (Decidable (p (.record name fields) ∧ EverywhereFields p fields))
  | .union branches =>
    have := decidableEverywhereBranches branches
    inferInstanceAs (Decidable (p (.union branches) ∧ EverywhereBranches p branches))

def decidableEverywhereFields :
    (fields : List (Text × Schema)) → Decidable (EverywhereFields p fields)
  | [] => inferInstanceAs (Decidable True)
  | (_, t) :: rest =>
    have := decidableEverywhere t
    have := decidableEverywhereFields rest
    inferInstanceAs (Decidable (Everywhere p t ∧ EverywhereFields p rest))

def decidableEverywhereBranches :
    (branches : List Schema) → Decidable (EverywhereBranches p branches)
  | [] => inferInstanceAs (Decidable True)
  | t :: rest =>
    have := decidableEverywhere t
    have := decidableEverywhereBranches rest
    inferInstanceAs (Decidable (Everywhere p t ∧ EverywhereBranches p rest))

end

instance (t : Schema) : Decidable (Everywhere p t) := decidableEverywhere t

end Decidable

def isUnion : Schema → Bool
  | .union _ => true
  | _ => false

theorem isUnion_eq_false {s : Schema} (plain : s.isCompound = false) : s.isUnion = false := by
  cases s with
  | union => cases plain
  | _ => rfl

theorem isCompound_eq_false {s : Schema} (other : s.record? = none) (flat : s.isUnion = false) :
    s.isCompound = false := by
  cases s with
  | record => cases other
  | union => cases flat
  | _ => rfl

/-- A schema in which no union occurs. -/
def UnionFree (t : Schema) : Prop := t.Everywhere fun s => s.isUnion = false

instance (t : Schema) : Decidable t.UnionFree :=
  inferInstanceAs (Decidable (t.Everywhere fun s => s.isUnion = false))

/-- Whether a schema is no record or lists its fields in ascending order. -/
def FieldsAscend : Schema → Prop
  | .record _ fields => Ascending fields
  | _ => True

instance : DecidablePred FieldsAscend
  | .record _ fields => inferInstanceAs (Decidable (fields.Pairwise (·.1 < ·.1)))
  | .primitive _ | .array .. | .union _ => inferInstanceAs (Decidable True)

/-- A schema whose records all list their fields in ascending order. -/
def Canonical (t : Schema) : Prop := t.Everywhere FieldsAscend

instance (t : Schema) : Decidable t.Canonical :=
  inferInstanceAs (Decidable (t.Everywhere FieldsAscend))

theorem canonical_primitive (kind : Kind) : Canonical (.primitive kind) :=
  everywhere_primitive.2 trivial

theorem canonical_array {name : Option Text} {items : Schema} :
    Canonical (.array name items) ↔ items.Canonical :=
  everywhere_array.trans (and_iff_right trivial)

theorem canonical_record {name : Text} {fields : List (Text × Schema)} :
    Canonical (.record name fields) ↔
      Ascending fields ∧ ∀ f t, fields.lookup f = some t → t.Canonical := by
  rw [Canonical, everywhere_record]
  refine and_congr_right fun asc => forall₂_congr fun f t => ?_
  rw [Ascending.lookup_eq_some_iff asc, Canonical]

end SchemaInference.Schema
