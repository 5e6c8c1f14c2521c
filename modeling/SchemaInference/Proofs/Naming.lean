import SchemaInference.Proofs.Everywhere

/-!
# Names of records

Inference names the records of a document after the keys that lead to them.
-/

namespace SchemaInference.Schema

mutual

/--
Whether the records of a schema have the names that inference gives them: `name` at the
root, which array items inherit, and the name of the field below a field.  Arrays have
no name; what stands in a union is named by the tags of the union.
-/
def FollowsNaming (name : Text) : Schema → Prop
  | .primitive _ | .union _ => True
  | .array n items => n = none ∧ FollowsNaming name items
  | .record n fields => n = name ∧ FieldsFollowNaming fields

/-- Whether the records in the types of fields have the names that inference gives them. -/
def FieldsFollowNaming : List (Text × Schema) → Prop
  | [] => True
  | (f, t) :: rest => FollowsNaming f t ∧ FieldsFollowNaming rest

end

variable {name : Text}

theorem followsNaming_primitive (k : Kind) : FollowsNaming name (.primitive k) := by
  simp [FollowsNaming]

theorem followsNaming_array {n : Option Text} {items : Schema} :
    FollowsNaming name (.array n items) ↔ n = none ∧ items.FollowsNaming name := by
  rw [FollowsNaming]

theorem fieldsFollowNaming_iff {fields : List (Text × Schema)} :
    FieldsFollowNaming fields ↔ ∀ e ∈ fields, e.2.FollowsNaming e.1 := by
  induction fields with
  | nil => simp [FieldsFollowNaming]
  | cons entry rest ih => rw [FieldsFollowNaming, ih, List.forall_mem_cons]

theorem followsNaming_record {n : Text} {fields : List (Text × Schema)} (asc : Ascending fields) :
    FollowsNaming name (.record n fields) ↔
      n = name ∧ ∀ f t, fields.lookup f = some t → t.FollowsNaming f := by
  rw [FollowsNaming, fieldsFollowNaming_iff]
  simp only [asc.lookup_eq_some_iff, Prod.forall]

theorem FieldsFollowNaming.lookup {fields : List (Text × Schema)} (h : FieldsFollowNaming fields)
    {f : Text} {t : Schema} (found : fields.lookup f = some t) : t.FollowsNaming f :=
  fieldsFollowNaming_iff.1 h (f, t) (mem_of_lookup found)

theorem unionFree_primitive (k : Kind) : UnionFree (.primitive k) :=
  everywhere_primitive.2 rfl

theorem unionFree_array {n : Option Text} {items : Schema} :
    UnionFree (.array n items) ↔ items.UnionFree :=
  everywhere_array.trans (and_iff_right rfl)

theorem unionFree_record {n : Text} {fields : List (Text × Schema)} (asc : Ascending fields) :
    UnionFree (.record n fields) ↔ ∀ f t, fields.lookup f = some t → t.UnionFree := by
  simp only [UnionFree, everywhere_record, asc.lookup_eq_some_iff]
  exact and_iff_right rfl

theorem not_unionFree_union (branches : List Schema) : ¬ UnionFree (.union branches) :=
  fun h => Bool.noConfusion h.self

end SchemaInference.Schema
