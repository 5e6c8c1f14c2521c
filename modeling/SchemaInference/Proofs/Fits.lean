import SchemaInference.Proofs.Documents
import SchemaInference.Proofs.Order

/-!
# Values that fit a schema

Null fits every schema, a scalar its kind and the wider numeric kinds, an array its
items, an object a record that has all its members as fields, and a value a union of
which it fits a branch.  Where tags are read, a tagged wrapper also fits what its tag
names.  Without tags a value that fits a schema fits every wider schema.
-/

namespace SchemaInference

/-- Whether a scalar is a value of a kind; null is a value of every kind. -/
def Scalar.Fits : Scalar → Kind → Prop
  | .null, _ => True
  | .bool _, k => k = .boolean
  | .integer n, k => match k with
    | .int => -0x80000000 ≤ n ∧ n < 0x80000000
    | .long => -0x8000000000000000 ≤ n ∧ n < 0x8000000000000000
    | k => k = .double
  | .real _, k => k = .double
  | .string _, k => k = .string

/--
Whether `tag` names a schema in tagged wrappers: the keyword of its kind, any numeric
keyword for a number, or the name of an array or a record.
-/
def Schema.HasTag (tag : Text) : Schema → Prop
  | .primitive k =>
    tag = k.keyword ∨ (k.isNumeric = true ∧ ∃ l : Kind, tag = l.keyword ∧ l.isNumeric = true)
  | .array name _ => name = some tag
  | .record name _ => name = tag
  | .union _ => False

/-- Whether a value is one of those that a schema describes; tags count if `tags` holds. -/
inductive Json.Fits (tags : Prop) : Json → Schema → Prop where
  | null (t : Schema) : Fits tags (.scalar .null) t
  | scalar {s : Scalar} {k : Kind} (fits : s.Fits k) : Fits tags (.scalar s) (.primitive k)
  | array {elements : List Json} {name : Option Text} {items : Schema}
    (fits : ∀ v ∈ elements, Fits tags v items) : Fits tags (.array elements) (.array name items)
  | object {members : List (Text × Json)} {name : Text} {fields : List (Text × Schema)}
    (known : ∀ f v, (f, v) ∈ members → ∃ t, fields.lookup f = some t)
    (fits : ∀ f v t, (f, v) ∈ members → fields.lookup f = some t → Fits tags v t) :
    Fits tags (.object members) (.record name fields)
  | branch {v : Json} {branches : List Schema} {b : Schema} (mem : b ∈ branches)
    (fits : Fits tags v b) : Fits tags v (.union branches)
  | tagged {tag : Text} {v : Json} {t : Schema} (read : tags) (named : t.HasTag tag)
    (fits : Fits tags v t) : Fits tags (.object [(tag, v)]) t

/-- Whether a value is one of those that a schema describes, tags not being read. -/
abbrev Json.FitsUntagged : Json → Schema → Prop := Json.Fits False

namespace Scalar

theorem fits_kind {s : Scalar} {k : Kind} (h : s.kind .strict = .ok k) : s.Fits k := by
  cases s with
  | integer n =>
    simp only [kind] at h
    split at h
    · next range => cases h; exact range
    split at h
    · next range => cases h; exact range
    · cases h
  | null => trivial
  | _ => cases h; rfl

theorem eq_null_of_fits {s : Scalar} (h : s.Fits .null) : s = null := by
  cases s with
  | null => rfl
  | integer n => cases h
  | _ => cases h

theorem fits_of_fits {s : Scalar} {k l : Kind} (h : s.Fits k) (wider : k.fits l = true) :
    s.Fits l := by
  cases s with
  | null => trivial
  | integer n =>
    cases k <;> cases l <;> first
      | contradiction
      | exact h
      | rfl
      | (simp only [Fits] at h ⊢; omega)
  | _ =>
    cases h
    cases l <;> first | contradiction | rfl

/-- The kind of a scalar is the narrowest of which it is a value. -/
theorem kind_fits {s : Scalar} {k l : Kind} (h : s.kind .strict = .ok k) (hl : s.Fits l) :
    k.fits l = true := by
  cases s with
  | null => cases h; exact l.null_fits
  | integer n =>
    simp only [kind] at h
    split at h
    · cases h
      cases l <;> first | contradiction | rfl
    split at h
    · cases h
      cases l <;> first | contradiction | rfl
    · cases h
  | _ =>
    cases h
    cases hl
    rfl

end Scalar

namespace Json

theorem FitsUntagged.mono {v : Json} {s t : Schema} (h : v.FitsUntagged s) (hle : s ≤ t) :
    v.FitsUntagged t := by
  induction h generalizing t with
  | null _ => exact .null t
  | @scalar s k fits =>
    rcases Schema.primitive_le_iff.1 hle with rfl | ⟨l, rfl, hkl⟩
    · rw [Scalar.eq_null_of_fits fits]
      exact .null t
    · exact .scalar (Scalar.fits_of_fits fits hkl)
  | array _ ih =>
    obtain ⟨m, u, rfl, _, hsu⟩ := Schema.array_le_iff.1 hle
    exact .array fun v hv => ih v hv hsu
  | @object members name fs known _ ih =>
    obtain ⟨gs, rfl, wider⟩ := Schema.record_le_iff.1 hle
    have find {f : Text} {v : Json} (hmem : (f, v) ∈ members) :
        ∃ s t, fs.lookup f = some s ∧ gs.lookup f = some t ∧ s ≤ t := by
      obtain ⟨s, found⟩ := known f v hmem
      obtain ⟨t, foundt, hst⟩ := wider f s (mem_of_lookup found)
      exact ⟨s, t, found, foundt, hst⟩
    refine .object (fun f v hmem => ?_) fun f v t hmem foundt => ?_
    · obtain ⟨_, t, _, foundt, _⟩ := find hmem
      exact ⟨t, foundt⟩
    · obtain ⟨s, u, found, foundu, hsu⟩ := find hmem
      cases foundt.symm.trans foundu
      exact ih f v s hmem found hsu
  | branch mem fits _ =>
    cases Schema.union_le_iff.1 hle
    exact .branch mem fits
  | tagged read => exact read.elim

end Json

end SchemaInference
