import SchemaInference.Proofs.Order

/-!
# Types that meet without a union

Two types agree if, wherever they meet, their join is found without putting a union
together: records meet records of their name that they overlap, and unions meet
themselves.  Mergeable types moreover have scalars and arrays that fit together.  Types
that agree only laxly may still fail to join, but then they fail whatever comes between
them.
-/

namespace SchemaInference

theorem Record.overlaps_iff {a b : Record} : a.overlaps b = true ↔
    a.fields = [] ∨ b.fields = [] ∨ ∃ f, (a.field? f).isSome ∧ (b.field? f).isSome := by
  simp only [Record.overlaps, Bool.or_eq_true, List.isEmpty_iff, List.any_eq_true, or_assoc]
  refine or_congr_right (or_congr_right ⟨?_, ?_⟩)
  · rintro ⟨⟨f, s⟩, hmem, hb⟩
    obtain ⟨t, found⟩ := exists_lookup_of_mem hmem
    exact ⟨f, by simp [Record.field?, found], hb⟩
  · rintro ⟨f, ha, hb⟩
    obtain ⟨s, found⟩ := Option.isSome_iff_exists.1 ha
    exact ⟨(f, s), mem_of_lookup found, hb⟩

theorem Record.overlaps_comm (a b : Record) : a.overlaps b = b.overlaps a := by
  rw [Bool.eq_iff_iff, overlaps_iff, overlaps_iff]
  grind

theorem Record.overlaps_self (a : Record) : a.overlaps a = true := by
  rw [overlaps_iff]
  cases ha : a.fields with
  | nil => exact .inl rfl
  | cons entry rest => exact .inr (.inr ⟨entry.1, by simp [Record.field?, ha]⟩)

namespace Schema

mutual

/--
Whether two types meet without a union.  If `lax` holds, a scalar may meet any scalar
and any array.
-/
def Agree (lax : Prop) : Schema → Schema → Prop
  | .primitive k, b => match b with
    | .primitive l =>
      k = .null ∨ l = .null ∨ k = l ∨ (k.isNumeric = true ∧ l.isNumeric = true) ∨ lax
    | .array .. => k = .null ∨ lax
    | _ => k = .null
  | .array _ s, b => match b with
    | .primitive l => l = .null ∨ lax
    | .array _ t => Agree lax s t
    | _ => False
  | .record n fs, b => match b with
    | .primitive l => l = .null
    | .record m gs =>
      n = m ∧ (Record.mk n fs).overlaps ⟨m, gs⟩ = true ∧ FieldsAgree lax fs gs
    | _ => False
  | .union ss, b => b = null ∨ b = .union ss

def FieldsAgree (lax : Prop) : List (Text × Schema) → List (Text × Schema) → Prop
  | [], _ => True
  | (f, s) :: fs, gs => (match gs.lookup f with
    | some t => Agree lax s t
    | none => True) ∧ FieldsAgree lax fs gs

end

section Decidable
variable {lax : Prop} [Decidable lax]

mutual

def decidableAgree : (s t : Schema) → Decidable (Agree lax s t)
  | .primitive k, t => match t with
    | .primitive l => inferInstanceAs (Decidable
        (k = .null ∨ l = .null ∨ k = l ∨ (k.isNumeric = true ∧ l.isNumeric = true) ∨ lax))
    | .array .. => inferInstanceAs (Decidable (k = .null ∨ lax))
    | .record .. | .union _ => inferInstanceAs (Decidable (k = .null))
  | .array _ s, t => match t with
    | .primitive l => inferInstanceAs (Decidable (l = .null ∨ lax))
    | .array _ t => decidableAgree s t
    | .record .. | .union _ => inferInstanceAs (Decidable False)
  | .record n fs, t => match t with
    | .primitive l => inferInstanceAs (Decidable (l = .null))
    | .record m gs =>
      have := decidableFieldsAgree fs gs
      inferInstanceAs (Decidable
        (n = m ∧ (Record.mk n fs).overlaps ⟨m, gs⟩ = true ∧ FieldsAgree lax fs gs))
    | .array .. | .union _ => inferInstanceAs (Decidable False)
  | .union ss, t => inferInstanceAs (Decidable (t = null ∨ t = .union ss))

def decidableFieldsAgree : (fs gs : List (Text × Schema)) → Decidable (FieldsAgree lax fs gs)
  | [], _ => inferInstanceAs (Decidable True)
  | (f, s) :: fs, gs =>
    have := decidableFieldsAgree fs gs
    have : Decidable (match gs.lookup f with
        | some t => Agree lax s t
        | none => True) := match gs.lookup f with
      | some t => decidableAgree s t
      | none => inferInstanceAs (Decidable True)
    inferInstanceAs (Decidable (_ ∧ FieldsAgree lax fs gs))

end

instance (s t : Schema) : Decidable (Agree lax s t) := decidableAgree s t

end Decidable

/-- Whether two types merge into one without a union. -/
abbrev Mergeable : Schema → Schema → Prop := Agree False

attribute [local simp] Agree FieldsAgree

variable {lax : Prop} {s t u : Schema} {n m : Text} {fs gs : List (Text × Schema)}

theorem fieldsAgree_iff_mem :
    FieldsAgree lax fs gs ↔ ∀ f s t, (f, s) ∈ fs → gs.lookup f = some t → Agree lax s t := by
  induction fs with
  | nil => simp
  | cons entry rest ih =>
    obtain ⟨g, r⟩ := entry
    rw [FieldsAgree, ih]
    constructor
    · rintro ⟨hr, hrest⟩ f s t hmem found
      rcases List.mem_cons.1 hmem with heq | hmem
      · cases heq
        rwa [found] at hr
      · exact hrest f s t hmem found
    · intro h
      refine ⟨?_, fun f s t hmem => h f s t (List.mem_cons_of_mem _ hmem)⟩
      split
      · next t found => exact h g r t List.mem_cons_self found
      · trivial

theorem fieldsAgree_iff (asc : Ascending fs) : FieldsAgree lax fs gs ↔
    ∀ f s t, fs.lookup f = some s → gs.lookup f = some t → Agree lax s t := by
  simp only [fieldsAgree_iff_mem, asc.lookup_eq_some_iff]

theorem agree_record : Agree lax (.record n fs) (.record m gs) ↔
    n = m ∧ (Record.mk n fs).overlaps ⟨m, gs⟩ = true ∧ FieldsAgree lax fs gs := by
  rw [Agree]

theorem null_agree (t : Schema) : Agree lax null t := by
  cases t <;> simp

theorem agree_null (t : Schema) : Agree lax t null := by
  cases t <;> simp

theorem agree_refl (h : t.Canonical) : Agree lax t t := by
  induction t using induction_parts with
  | primitive k => simp
  | array n items ih => simpa using ih (canonical_array.1 h)
  | record n fields ih =>
    obtain ⟨asc, parts⟩ := canonical_record.1 h
    refine agree_record.2 ⟨rfl, Record.overlaps_self _, (fieldsAgree_iff asc).2 ?_⟩
    intro f s t hs ht
    cases hs.symm.trans ht
    exact ih f s (mem_of_lookup hs) (parts f s hs)
  | union bs => simp

theorem Agree.symm (hs : s.Canonical) (ht : t.Canonical) (h : Agree lax s t) :
    Agree lax t s := by
  induction s using induction_parts generalizing t with
  | primitive k =>
    cases t <;> simp_all
    grind
  | array n items ih =>
    cases t with
    | array m t =>
      simp only [Agree] at h ⊢
      exact ih (canonical_array.1 hs) (canonical_array.1 ht) h
    | _ => simp_all
  | record n fs ih =>
    cases t with
    | record m gs =>
      obtain ⟨rfl, overlap, shared⟩ := agree_record.1 h
      obtain ⟨ascf, partsf⟩ := canonical_record.1 hs
      obtain ⟨ascg, partsg⟩ := canonical_record.1 ht
      refine agree_record.2 ⟨rfl, (Record.overlaps_comm _ _).trans overlap, ?_⟩
      refine (fieldsAgree_iff ascg).2 fun f t s foundt founds => ?_
      exact ih f s (mem_of_lookup founds) (partsf f s founds) (partsg f t foundt)
        ((fieldsAgree_iff ascf).1 shared f s t founds foundt)
    | primitive l => simpa using h
    | _ => simp at h
  | union bs =>
    rcases (show t = null ∨ t = .union bs by simpa using h) with rfl | rfl
    · exact null_agree _
    · simp

theorem Agree.mono {lax' : Prop} (weaker : lax → lax') (h : Agree lax s t) : Agree lax' s t := by
  induction s using induction_parts generalizing t with
  | primitive k => cases t <;> simp_all <;> grind
  | array n items ih =>
    cases t with
    | array m t => simp only [Agree] at h ⊢; exact ih h
    | primitive l => simp only [Agree] at h ⊢; exact h.imp_right weaker
    | _ => simp at h
  | record n fs ih =>
    cases t with
    | record m gs =>
      obtain ⟨rfl, overlap, shared⟩ := agree_record.1 h
      refine agree_record.2 ⟨rfl, overlap, fieldsAgree_iff_mem.2 fun f s t hmem found => ?_⟩
      exact ih f s hmem (fieldsAgree_iff_mem.1 shared f s t hmem found)
    | primitive l => simpa using h
    | _ => simp at h
  | union bs => simpa using h

/-- Types that agree laxly are mergeable if some type is above both. -/
theorem Agree.mergeable_of_le {d : Schema} (h : Agree lax s t) (hs : s ≤ d) (ht : t ≤ d) :
    Mergeable s t := by
  induction s using induction_parts generalizing t d with
  | primitive k =>
    cases t with
    | primitive l =>
      rcases primitive_le_iff.1 hs with rfl | ⟨m, rfl, hkm⟩
      · exact null_agree _
      · have hlm := primitive_le_primitive.1 ht
        revert hkm hlm
        simp only [Mergeable, Agree]
        cases k <;> cases l <;> cases m <;> decide
    | array m t =>
      obtain ⟨m, u, rfl, _⟩ := array_le_iff.1 ht
      rcases primitive_le_iff.1 hs with rfl | ⟨l, hl, _⟩
      · exact null_agree _
      · cases hl
    | _ => simpa [Mergeable] using h
  | array n items ih =>
    obtain ⟨o, u, rfl, _, hs⟩ := array_le_iff.1 hs
    cases t with
    | primitive l =>
      rcases primitive_le_iff.1 ht with rfl | ⟨l, hl, _⟩
      · exact agree_null _
      · cases hl
    | array m t =>
      simp only [Mergeable, Agree] at h ⊢
      exact ih h hs (array_le_array.1 ht).2
    | _ => simp at h
  | record n fs ih =>
    cases t with
    | record m gs =>
      obtain ⟨rfl, overlap, shared⟩ := agree_record.1 h
      obtain ⟨hs', rfl, hfh⟩ := record_le_iff.1 hs
      obtain ⟨_, heq, hgh⟩ := record_le_iff.1 ht
      cases heq
      refine agree_record.2 ⟨rfl, overlap, fieldsAgree_iff_mem.2 fun f s t hmem found => ?_⟩
      obtain ⟨u, foundu, hsu⟩ := hfh f s hmem
      obtain ⟨u', foundu', htu⟩ := hgh f t (mem_of_lookup found)
      cases foundu.symm.trans foundu'
      exact ih f s hmem (fieldsAgree_iff_mem.1 shared f s t hmem found) hsu htu
    | primitive l => simpa [Mergeable] using h
    | _ => simp at h
  | union bs => simpa [Mergeable] using h

end Schema

namespace Record

/-- Whether two records have one name and shared fields whose types agree. -/
def Consistent (lax : Prop) (a b : Record) : Prop :=
  a.name = b.name ∧ Schema.FieldsAgree lax a.fields b.fields

variable {lax : Prop} {a b : Record}

theorem consistent_iff (asc : Ascending a.fields) : a.Consistent lax b ↔ a.name = b.name ∧
    ∀ f s t, a.field? f = some s → b.field? f = some t → Schema.Agree lax s t :=
  and_congr_right fun _ => Schema.fieldsAgree_iff asc

theorem Consistent.mono {lax' : Prop} (weaker : lax → lax') (h : a.Consistent lax b) :
    a.Consistent lax' b :=
  ⟨h.1, Schema.fieldsAgree_iff_mem.2 fun f s t hmem found =>
    (Schema.fieldsAgree_iff_mem.1 h.2 f s t hmem found).mono weaker⟩

theorem Consistent.symm (ha : a.schema.Canonical) (hb : b.schema.Canonical)
    (h : a.Consistent lax b) : b.Consistent lax a := by
  obtain ⟨asca, partsa⟩ := Schema.canonical_record.1 ha
  obtain ⟨ascb, partsb⟩ := Schema.canonical_record.1 hb
  obtain ⟨name, shared⟩ := (consistent_iff asca).1 h
  refine (consistent_iff ascb).2 ⟨name.symm, fun f t s foundt founds => ?_⟩
  exact (shared f s t founds foundt).symm (partsa f s founds) (partsb f t foundt)

theorem agree_schema : Schema.Agree lax a.schema b.schema ↔
    a.Consistent lax b ∧ a.overlaps b = true :=
  Schema.agree_record.trans
    ⟨fun ⟨name, overlap, shared⟩ => ⟨⟨name, shared⟩, overlap⟩,
      fun ⟨⟨name, shared⟩, overlap⟩ => ⟨name, overlap, shared⟩⟩

end Record

end SchemaInference
