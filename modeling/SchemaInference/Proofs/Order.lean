import SchemaInference.Join.Union
import SchemaInference.Proofs.Everywhere

/-!
# The order of schemas

`s ≤ t` says that `t` is at least as wide as `s`: null is below everything, numeric
kinds widen, an unnamed array is above the named ones, and a record is below the
records of its name that have all its fields with types as wide.  Unions are comparable
to null and to themselves only.  On canonical schemas this is a partial order.
-/

namespace SchemaInference

namespace Kind

theorem fits_refl (k : Kind) : k.fits k = true := by cases k <;> rfl

theorem fits_trans {k l m : Kind} (hkl : k.fits l = true) (hlm : l.fits m = true) :
    k.fits m = true := by
  cases k <;> cases l <;> first | contradiction | (cases m <;> first | contradiction | rfl)

theorem fits_antisymm {k l : Kind} (hkl : k.fits l = true) (hlk : l.fits k = true) : k = l := by
  cases k <;> cases l <;> first | contradiction | rfl

theorem null_fits (k : Kind) : null.fits k = true := by cases k <;> rfl

theorem eq_null_of_fits_null {k : Kind} (h : k.fits null = true) : k = null := by
  cases k <;> first | contradiction | rfl

end Kind

namespace Schema

mutual

/-- Whether a schema is at least as wide as another. -/
def Le : Schema → Schema → Prop
  | .primitive k, b => match b with
    | .primitive l => k.fits l = true
    | _ => k = .null
  | .array n s, b => match b with
    | .array m t => (n = m ∨ m = none) ∧ Le s t
    | _ => False
  | .record n fs, b => match b with
    | .record m gs => n = m ∧ FieldsLe fs gs
    | _ => False
  | .union ss, b => b = .union ss

/-- Whether every field of a list is found in another with a type at least as wide. -/
def FieldsLe : List (Text × Schema) → List (Text × Schema) → Prop
  | [], _ => True
  | (f, s) :: fs, gs => (match gs.lookup f with
    | some t => Le s t
    | none => False) ∧ FieldsLe fs gs

end

instance : LE Schema := ⟨Le⟩

attribute [local simp] Le FieldsLe

variable {s t u : Schema}

theorem fieldsLe_iff {fs gs : List (Text × Schema)} :
    FieldsLe fs gs ↔ ∀ f s, (f, s) ∈ fs → ∃ t, gs.lookup f = some t ∧ s ≤ t := by
  induction fs with
  | nil => simp
  | cons entry rest ih =>
    obtain ⟨g, s⟩ := entry
    rw [FieldsLe, ih]
    constructor
    · rintro ⟨hs, hrest⟩ f r hmem
      rcases List.mem_cons.1 hmem with heq | hmem
      · cases heq
        split at hs
        · next t found => exact ⟨t, found, hs⟩
        · exact hs.elim
      · exact hrest f r hmem
    · intro h
      refine ⟨?_, fun f r hmem => h f r (List.mem_cons_of_mem _ hmem)⟩
      obtain ⟨t, found, hle⟩ := h g s List.mem_cons_self
      rw [found]
      exact hle

theorem primitive_le_primitive {k l : Kind} :
    (primitive k ≤ primitive l) ↔ k.fits l = true := by
  change Le _ _ ↔ _
  rw [Le]

theorem null_le (t : Schema) : null ≤ t := by
  change Le _ _
  cases t with
  | primitive l => exact primitive_le_primitive.2 l.null_fits
  | _ => simp

theorem le_primitive_iff {l : Kind} : t ≤ primitive l ↔ ∃ k, t = primitive k ∧ k.fits l = true := by
  constructor
  · intro h
    cases t with
    | primitive k => exact ⟨k, rfl, primitive_le_primitive.1 h⟩
    | _ => exact absurd (show Le _ _ from h) (by simp)
  · rintro ⟨k, rfl, h⟩
    exact primitive_le_primitive.2 h

theorem primitive_le_iff {k : Kind} :
    primitive k ≤ t ↔ k = .null ∨ ∃ l, t = primitive l ∧ k.fits l = true := by
  constructor
  · intro h
    cases t with
    | primitive l => exact .inr ⟨l, rfl, primitive_le_primitive.1 h⟩
    | _ => exact .inl (by simpa using (show Le _ _ from h))
  · rintro (rfl | ⟨l, rfl, h⟩)
    · exact null_le t
    · exact primitive_le_primitive.2 h

theorem array_le_iff {n : Option Text} :
    array n s ≤ t ↔ ∃ m u, t = array m u ∧ (n = m ∨ m = none) ∧ s ≤ u := by
  change Le _ _ ↔ _
  cases t with
  | array m u => simp only [Le, array.injEq]; exact ⟨fun h => ⟨m, u, ⟨rfl, rfl⟩, h⟩, by
      rintro ⟨_, _, ⟨rfl, rfl⟩, h⟩; exact h⟩
  | _ => simp

theorem array_le_array {n m : Option Text} :
    array n s ≤ array m t ↔ (n = m ∨ m = none) ∧ s ≤ t := by
  change Le _ _ ↔ _
  rw [Le]
  rfl

theorem record_le_iff {n : Text} {fs : List (Text × Schema)} :
    record n fs ≤ t ↔ ∃ gs, t = record n gs ∧
      ∀ f s, (f, s) ∈ fs → ∃ t, gs.lookup f = some t ∧ s ≤ t := by
  change Le _ _ ↔ _
  cases t with
  | record m gs =>
    simp only [Le, fieldsLe_iff, record.injEq]
    constructor
    · rintro ⟨rfl, h⟩
      exact ⟨gs, ⟨rfl, rfl⟩, h⟩
    · rintro ⟨_, ⟨rfl, rfl⟩, h⟩
      exact ⟨rfl, h⟩
  | _ => simp

theorem record_le_record {n m : Text} {fs gs : List (Text × Schema)} (asc : Ascending fs) :
    record n fs ≤ record m gs ↔ n = m ∧
      ∀ f s, fs.lookup f = some s → ∃ t, gs.lookup f = some t ∧ s ≤ t := by
  simp only [record_le_iff, record.injEq, ← asc.lookup_eq_some_iff]
  constructor
  · rintro ⟨_, ⟨rfl, rfl⟩, h⟩
    exact ⟨rfl, h⟩
  · rintro ⟨rfl, h⟩
    exact ⟨gs, ⟨rfl, rfl⟩, h⟩

theorem union_le_iff {bs : List Schema} : union bs ≤ t ↔ t = union bs := by
  change Le _ _ ↔ _
  rw [Le]

theorem le_null_iff : t ≤ null ↔ t = null := by
  rw [le_primitive_iff]
  constructor
  · rintro ⟨k, rfl, h⟩
    rw [Kind.eq_null_of_fits_null h]
  · rintro rfl
    exact ⟨.null, rfl, rfl⟩

theorem le_refl (h : t.Canonical) : t ≤ t := by
  induction t using induction_parts with
  | primitive k => exact primitive_le_primitive.2 k.fits_refl
  | array n items ih => exact array_le_array.2 ⟨.inl rfl, ih (canonical_array.1 h)⟩
  | record n fields ih =>
    obtain ⟨asc, parts⟩ := canonical_record.1 h
    refine (record_le_record asc).2 ⟨rfl, fun f s found => ⟨s, found, ?_⟩⟩
    exact ih f s (mem_of_lookup found) (parts f s found)
  | union bs => exact union_le_iff.2 rfl

theorem le_trans (hst : s ≤ t) (htu : t ≤ u) : s ≤ u := by
  induction s using induction_parts generalizing t u with
  | primitive k =>
    rcases primitive_le_iff.1 hst with rfl | ⟨l, rfl, hkl⟩
    · exact null_le u
    rcases primitive_le_iff.1 htu with rfl | ⟨m, rfl, hlm⟩
    · rw [Kind.eq_null_of_fits_null hkl]; exact null_le u
    · exact primitive_le_primitive.2 (Kind.fits_trans hkl hlm)
  | array n s ih =>
    obtain ⟨m, t, rfl, hnm, hst⟩ := array_le_iff.1 hst
    obtain ⟨o, u, rfl, hmo, htu⟩ := array_le_iff.1 htu
    refine array_le_array.2 ⟨?_, ih hst htu⟩
    rcases hmo with rfl | ho
    · exact hnm
    · exact .inr ho
  | record n fs ih =>
    obtain ⟨gs, rfl, hfg⟩ := record_le_iff.1 hst
    obtain ⟨hs, rfl, hgh⟩ := record_le_iff.1 htu
    refine record_le_iff.2 ⟨hs, rfl, fun f s hmem => ?_⟩
    obtain ⟨t, found, hst⟩ := hfg f s hmem
    obtain ⟨u, found, htu⟩ := hgh f t (mem_of_lookup found)
    exact ⟨u, found, ih f s hmem hst htu⟩
  | union ss =>
    cases union_le_iff.1 hst
    exact htu

theorem le_antisymm (hs : s.Canonical) (ht : t.Canonical) (hst : s ≤ t) (hts : t ≤ s) :
    s = t := by
  induction s using induction_parts generalizing t with
  | primitive k =>
    obtain ⟨l, rfl, hlk⟩ := le_primitive_iff.1 hts
    rw [Kind.fits_antisymm (primitive_le_primitive.1 hst) hlk]
  | array n s ih =>
    obtain ⟨m, t, rfl, hnm, hst⟩ := array_le_iff.1 hst
    obtain ⟨hmn, hts⟩ := array_le_array.1 hts
    rw [ih (canonical_array.1 hs) (canonical_array.1 ht) hst hts]
    rcases hnm with rfl | rfl
    · rfl
    · rcases hmn with rfl | rfl <;> rfl
  | record n fs ih =>
    obtain ⟨gs, rfl, _⟩ := record_le_iff.1 hst
    obtain ⟨ascf, partsf⟩ := canonical_record.1 hs
    obtain ⟨ascg, partsg⟩ := canonical_record.1 ht
    have hfg := ((record_le_record ascf).1 hst).2
    have hgf := ((record_le_record ascg).1 hts).2
    refine congrArg (record n) (ascf.ext ascg fun f => ?_)
    cases hf : fs.lookup f with
    | some s =>
      obtain ⟨t, found, hst⟩ := hfg f s hf
      obtain ⟨r, again, hts⟩ := hgf f t found
      cases hf.symm.trans again
      rw [found, ih f s (mem_of_lookup hf) (partsf f s hf) (partsg f t found) hst hts]
    | none =>
      cases hg : gs.lookup f with
      | none => rfl
      | some t =>
        obtain ⟨r, found, _⟩ := hgf f t hg
        cases hf.symm.trans found
  | union ss => exact (union_le_iff.1 hst).symm

end Schema

end SchemaInference
