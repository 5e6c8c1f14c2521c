import SchemaInference.Join.Records

/-!
# Fields of records

What a record says of a field is what `List.lookup` finds.  Ascending field lists are
determined by their lookups, and merging two of them is a join at every name.
-/

namespace SchemaInference

namespace Text

theorem ne_of_lt {f g : Text} (h : f < g) : f ≠ g := fun e => Std.lt_irrefl (e ▸ h)

theorem lt_of_not_lt {f g : Text} (h : ¬ f < g) (ne : f ≠ g) : g < f := by
  rcases Std.lt_trichotomy f g with hlt | heq | hgt
  · exact absurd hlt h
  · exact absurd heq ne
  · exact hgt

end Text

/-- The names of a list of fields ascend, so each stands once. -/
def Ascending (fields : List (Text × Schema)) : Prop := fields.Pairwise (·.1 < ·.1)

section Lookup
variable {α : Type} {f : Text} {t : α} {fields : List (Text × α)}

theorem lookup_cons_ite (g : Text) (s : α) (rest : List (Text × α)) (f : Text) :
    ((g, s) :: rest).lookup f = if f = g then some s else rest.lookup f := by
  by_cases h : f = g
  · simp [h]
  · simp [List.lookup_cons, beq_false_of_ne h, h]

theorem lookup_eq_none_of_unused (unused : f ∉ fields.map Prod.fst) : fields.lookup f = none := by
  refine List.lookup_eq_none_iff.2 fun entry hmem => bne_iff_ne.2 fun heq => unused ?_
  exact heq ▸ List.mem_map_of_mem hmem

theorem mem_of_lookup (h : fields.lookup f = some t) : (f, t) ∈ fields := by
  obtain ⟨before, after, rfl, _⟩ := List.lookup_eq_some_iff.1 h
  simp

theorem exists_lookup_of_mem (h : (f, t) ∈ fields) : ∃ s, fields.lookup f = some s := by
  refine Option.isSome_iff_exists.1 (List.lookup_isSome_iff.2 ⟨(f, t), h, ?_⟩)
  simp

theorem lookup_of_mem_of_nodup (distinct : (fields.map Prod.fst).Nodup) (h : (f, t) ∈ fields) :
    fields.lookup f = some t := by
  induction fields with
  | nil => cases h
  | cons entry rest ih =>
    obtain ⟨g, s⟩ := entry
    obtain ⟨unused, distinct⟩ := List.nodup_cons.1 distinct
    rcases List.mem_cons.1 h with heq | hmem
    · cases heq; simp
    · have used : f ∈ rest.map Prod.fst := List.mem_map_of_mem hmem
      have ne : f ≠ g := fun e => unused (e ▸ used)
      rw [lookup_cons_ite, if_neg ne, ih distinct hmem]

end Lookup

namespace Ascending
variable {fs gs : List (Text × Schema)}

theorem nodup (h : Ascending fs) : (fs.map Prod.fst).Nodup :=
  List.pairwise_map.2 (h.imp Text.ne_of_lt)

theorem nodup_fields (h : Ascending fs) : fs.Nodup :=
  h.imp fun hlt heq => Text.ne_of_lt hlt (congrArg Prod.fst heq)

theorem lookup_eq_some_iff {f : Text} {t : Schema} (h : Ascending fs) :
    fs.lookup f = some t ↔ (f, t) ∈ fs :=
  ⟨mem_of_lookup, lookup_of_mem_of_nodup h.nodup⟩

/-- Ascending fields are determined by what is found under every name. -/
theorem ext (hf : Ascending fs) (hg : Ascending gs) (same : ∀ f, fs.lookup f = gs.lookup f) :
    fs = gs := by
  have perm : fs.Perm gs := by
    refine (List.perm_ext_iff_of_nodup hf.nodup_fields hg.nodup_fields).2 fun (f, t) => ?_
    rw [← hf.lookup_eq_some_iff, ← hg.lookup_eq_some_iff, same]
  refine perm.eq_of_pairwise (fun a b _ _ hab hba => ?_) hf hg
  exact absurd (Std.lt_trans hab hba) Std.lt_irrefl

end Ascending

namespace Record

theorem eq_of_ascending {a b : Record} (ha : Ascending a.fields) (hb : Ascending b.fields)
    (name : a.name = b.name) (same : ∀ f, a.field? f = b.field? f) : a = b := by
  obtain ⟨n, fs⟩ := a
  obtain ⟨m, gs⟩ := b
  cases name
  cases ha.ext hb same
  rfl

section PutField
variable (name : Text) (t : Schema)

theorem lookup_putField (fields : List (Text × Schema)) (f : Text) :
    (putField name t fields).lookup f = if f = name then some t else fields.lookup f := by
  induction fields with
  | nil => simp [putField, lookup_cons_ite]
  | cons entry rest ih =>
    obtain ⟨other, s⟩ := entry
    simp only [putField]
    split
    · simp only [lookup_cons_ite]
    split
    · next heq => subst heq; by_cases h : f = name <;> simp [lookup_cons_ite, h]
    · next hne =>
      by_cases h : f = other
      · subst h; simp [Ne.symm hne]
      · simp [lookup_cons_ite, h, ih]

theorem mem_names_putField {fields : List (Text × Schema)} {f : Text} :
    f ∈ (putField name t fields).map Prod.fst ↔ f = name ∨ f ∈ fields.map Prod.fst := by
  have found (gs : List (Text × Schema)) : f ∈ gs.map Prod.fst ↔ (gs.lookup f).isSome := by
    simp [List.lookup_isSome_iff]
  rw [found, found, lookup_putField]
  by_cases h : f = name <;> simp [h]

theorem mem_of_mem_putField {fields : List (Text × Schema)} {e : Text × Schema}
    (h : e ∈ putField name t fields) : e = (name, t) ∨ e ∈ fields := by
  induction fields with
  | nil => exact .inl (List.mem_singleton.1 h)
  | cons entry rest ih =>
    simp only [putField] at h
    split at h
    · exact List.mem_cons.1 h
    split at h
    · exact (List.mem_cons.1 h).imp_right (List.mem_cons_of_mem _)
    · rcases List.mem_cons.1 h with rfl | h
      · exact .inr List.mem_cons_self
      · exact (ih h).imp_right (List.mem_cons_of_mem _)

theorem ascending_putField {fields : List (Text × Schema)} (h : Ascending fields) :
    Ascending (putField name t fields) := by
  induction fields with
  | nil => simp [putField, Ascending]
  | cons entry rest ih =>
    obtain ⟨other, s⟩ := entry
    obtain ⟨least, tail⟩ := List.pairwise_cons.1 h
    simp only [putField]
    split
    · next hlt =>
      refine List.pairwise_cons.2 ⟨fun g hg => ?_, h⟩
      rcases List.mem_cons.1 hg with rfl | hg
      · exact hlt
      · exact Std.lt_trans hlt (least g hg)
    split
    · next heq => subst heq; exact List.pairwise_cons.2 ⟨least, tail⟩
    · next hnot hne =>
      refine List.pairwise_cons.2 ⟨fun g hg => ?_, ih tail⟩
      rcases (mem_names_putField name t).1 (List.mem_map_of_mem hg) with heq | hold
      · exact heq ▸ Text.lt_of_not_lt hnot hne
      · obtain ⟨e, he, heq⟩ := List.mem_map.1 hold
        exact heq ▸ least e he

end PutField

theorem ascending_sortFields (fields : List (Text × Schema)) : Ascending (sortFields fields) := by
  have go : ∀ rest sorted : List (Text × Schema), Ascending sorted →
      Ascending (rest.foldl (fun sorted f => putField f.1 f.2 sorted) sorted) := by
    intro rest
    induction rest with
    | nil => exact fun _ h => h
    | cons f rest ih => exact fun sorted h => ih _ (ascending_putField f.1 f.2 h)
  exact go fields [] .nil

theorem lookup_sortFields {fields : List (Text × Schema)}
    (distinct : (fields.map Prod.fst).Nodup) (f : Text) :
    (sortFields fields).lookup f = fields.lookup f := by
  have go : ∀ rest sorted : List (Text × Schema), (rest.map Prod.fst).Nodup →
      (rest.foldl (fun sorted f => putField f.1 f.2 sorted) sorted).lookup f =
        (rest.lookup f).or (sorted.lookup f) := by
    intro rest
    induction rest with
    | nil => simp
    | cons entry rest ih =>
      obtain ⟨g, s⟩ := entry
      intro sorted distinct
      obtain ⟨unused, distinct⟩ := List.nodup_cons.1 distinct
      simp only [List.foldl_cons, ih _ distinct, lookup_putField, lookup_cons_ite]
      by_cases h : f = g
      · subst h
        simp [lookup_eq_none_of_unused unused]
      · simp [h]
  simpa [sortFields] using go fields [] distinct

theorem mem_of_mem_sortFields {fields : List (Text × Schema)} {f : Text × Schema}
    (h : f ∈ sortFields fields) : f ∈ fields := by
  have go : ∀ rest sorted : List (Text × Schema),
      f ∈ rest.foldl (fun sorted f => putField f.1 f.2 sorted) sorted → f ∈ rest ∨ f ∈ sorted := by
    intro rest
    induction rest with
    | nil => exact fun _ h => .inr h
    | cons e rest ih =>
      intro sorted hf
      rcases ih _ hf with hf | hf
      · exact .inl (List.mem_cons_of_mem _ hf)
      · rcases mem_of_mem_putField _ _ hf with rfl | hf
        · exact .inl List.mem_cons_self
        · exact .inr hf
  simpa using go fields [] h

theorem sortFields_of_ascending {fields : List (Text × Schema)} (h : Ascending fields) :
    sortFields fields = fields :=
  (ascending_sortFields fields).ext h (lookup_sortFields h.nodup)

theorem sortFields_perm {fs gs : List (Text × Schema)} (perm : fs.Perm gs)
    (distinct : (fs.map Prod.fst).Nodup) : sortFields fs = sortFields gs := by
  apply (ascending_sortFields fs).ext (ascending_sortFields gs)
  intro f
  have distinct' : (gs.map Prod.fst).Nodup := (perm.map Prod.fst).nodup_iff.1 distinct
  rw [lookup_sortFields distinct, lookup_sortFields distinct']
  ext t
  constructor
  · exact fun h => lookup_of_mem_of_nodup distinct' (perm.mem_iff.1 (mem_of_lookup h))
  · exact fun h => lookup_of_mem_of_nodup distinct (perm.mem_iff.2 (mem_of_lookup h))

/-- What two records say of a field together, in terms of a join of its types. -/
inductive FieldJoin (j : Join) : Option Schema → Option Schema → Option Schema → Prop where
  | absent : FieldJoin j none none none
  | left (s : Schema) : FieldJoin j (some s) none (some s)
  | right (t : Schema) : FieldJoin j none (some t) (some t)
  | both {s t u : Schema} (joined : j s t = .ok u) : FieldJoin j (some s) (some t) (some u)

theorem FieldJoin.eq_of_left {j : Join} {s : Schema} {found : Option Schema}
    (h : FieldJoin j (some s) none found) : found = some s := by
  cases h
  rfl

theorem FieldJoin.isSome_iff {j : Join} {s t found : Option Schema} (h : FieldJoin j s t found) :
    found.isSome ↔ s.isSome ∨ t.isSome := by
  cases h <;> simp

/-- What holds of the types of either record and of their joins holds of the joined type. -/
theorem FieldJoin.of_some {j : Join} {p : Schema → Prop} {s t : Option Schema} {u : Schema}
    (h : FieldJoin j s t (some u)) (left : ∀ a, s = some a → p a) (right : ∀ b, t = some b → p b)
    (both : ∀ a b, s = some a → t = some b → j a b = .ok u → p u) : p u := by
  cases h with
  | left => exact left u rfl
  | right => exact right u rfl
  | @both a b _ joined => exact both a b rfl rfl joined

section Merge
variable {j : Join} {owner : Text} {present added fields : List (Text × Schema)}

theorem ascending_mergeFields (h : mergeFields j owner present added = .ok fields)
    (asc : Ascending present) : Ascending fields := by
  induction added generalizing present with
  | nil => cases h; exact asc
  | cons entry rest ih =>
    obtain ⟨name, t⟩ := entry
    simp only [mergeFields] at h
    split at h
    · exact ih h (ascending_putField _ _ asc)
    split at h
    · exact ih h (ascending_putField _ _ asc)
    · cases h

theorem fieldJoin_mergeFields (h : mergeFields j owner present added = .ok fields)
    (distinct : (added.map Prod.fst).Nodup) (f : Text) :
    FieldJoin j (present.lookup f) (added.lookup f) (fields.lookup f) := by
  induction added generalizing present with
  | nil =>
    simp only [mergeFields, Except.ok.injEq] at h
    subst h
    cases present.lookup f with
    | none => exact .absent
    | some s => exact .left s
  | cons entry rest ih =>
    obtain ⟨name, t⟩ := entry
    obtain ⟨unused, later⟩ := List.nodup_cons.1 distinct
    simp only [mergeFields] at h
    by_cases heq : f = name
    · subst heq
      -- the name does not occur again, so its type is the one that is put here
      have put (u : Schema) (h : mergeFields j owner (putField f u present) rest = .ok fields) :
          fields.lookup f = some u := by
        have found := ih h later
        rw [lookup_putField, if_pos rfl, lookup_eq_none_of_unused unused] at found
        exact found.eq_of_left
      rw [lookup_cons_ite, if_pos rfl]
      split at h
      · next free => rw [put t h, free]; exact .right t
      split at h
      · next s held _ u joined => rw [put u h, held]; exact .both joined
      · cases h
    · have skip (u : Schema) (h : mergeFields j owner (putField name u present) rest = .ok fields) :
          FieldJoin j (present.lookup f) (rest.lookup f) (fields.lookup f) := by
        have found := ih h later
        rwa [lookup_putField, if_neg heq] at found
      rw [lookup_cons_ite, if_neg heq]
      split at h
      · exact skip t h
      split at h
      · next u joined => exact skip u h
      · cases h

theorem exists_mergeFields (distinct : (added.map Prod.fst).Nodup)
    (total : ∀ f s t, present.lookup f = some s → added.lookup f = some t → ∃ u, j s t = .ok u) :
    ∃ fields, mergeFields j owner present added = .ok fields := by
  induction added generalizing present with
  | nil => exact ⟨present, rfl⟩
  | cons entry rest ih =>
    obtain ⟨name, t⟩ := entry
    obtain ⟨unused, distinct⟩ := List.nodup_cons.1 distinct
    have later (u : Schema) : ∃ fields, mergeFields j owner (putField name u present) rest =
        .ok fields := by
      refine ih distinct fun f s t' held found => ?_
      have ne : f ≠ name := fun e => by
        rw [e, lookup_eq_none_of_unused unused] at found
        cases found
      rw [lookup_putField, if_neg ne] at held
      exact total f s t' held (by rw [lookup_cons_ite, if_neg ne, found])
    simp only [mergeFields]
    split
    · exact later t
    · next s held =>
      obtain ⟨u, joined⟩ := total name s t held (by simp)
      simp only [joined]
      exact later u

theorem merge_of_one_field {name name' f : Text} {s t u : Schema} (joined : j s t = .ok u) :
    merge j ⟨name, [(f, s)]⟩ ⟨name', [(f, t)]⟩ = .ok ⟨name, [(f, u)]⟩ := by
  simp [merge, mergeFields, sortFields, putField, joined, Except.map]

variable {a b c : Record}

/-- What a merged record is: it has the name of the first, and every field of either. -/
theorem merge_spec (h : a.merge j b = .ok c) (ha : Ascending a.fields) (hb : Ascending b.fields) :
    c.name = a.name ∧ Ascending c.fields ∧
      ∀ f, FieldJoin j (a.field? f) (b.field? f) (c.field? f) := by
  unfold merge at h
  rw [sortFields_of_ascending ha] at h
  cases merged : mergeFields j a.name a.fields b.fields with
  | error reason => rw [merged] at h; cases h
  | ok fields =>
    rw [merged] at h
    cases h
    exact ⟨rfl, ascending_mergeFields merged ha, fieldJoin_mergeFields merged hb.nodup⟩

theorem exists_merge (ha : Ascending a.fields) (hb : Ascending b.fields)
    (total : ∀ f s t, a.field? f = some s → b.field? f = some t → ∃ u, j s t = .ok u) :
    ∃ c, a.merge j b = .ok c := by
  unfold merge
  rw [sortFields_of_ascending ha]
  obtain ⟨fields, merged⟩ : ∃ fields, mergeFields j a.name a.fields b.fields = .ok fields :=
    exists_mergeFields hb.nodup total
  exact ⟨⟨a.name, fields⟩, by rw [merged]; rfl⟩

end Merge

end Record

end SchemaInference
