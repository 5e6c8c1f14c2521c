import SchemaInference.Proofs.Collections
import SchemaInference.Proofs.Tables

/-!
# How collections are joined

The ways in which the strict join of a collection comes about, and the parts of a union
that is put together: the one plain branch, the clusters of the records, and the table
of all branches.
-/

namespace SchemaInference

open Schema

variable {j : Join} {ts : List Schema} {c : Schema}

/-- How the join `c` of the types `ts` comes about. -/
inductive JoinedAll (j : Join) (ts : List Schema) (c : Schema) : Prop where
  | plain (plain : ∀ t ∈ Strict.candidates ts, t.isCompound = false)
    (joined : joinList (joinPlain .strict j) (Strict.candidates ts) = .ok c) : JoinedAll j ts c
  | record {rs : List Record} {r : Record}
    (records : Strict.candidates ts = rs.map Record.schema)
    (clusters : Record.clusters j rs = .ok [r]) (eq : c = r.schema) : JoinedAll j ts c
  | union (compound : ∃ t ∈ Strict.candidates ts, t.isCompound = true)
    (several : ∀ rs : List Record, Strict.candidates ts = rs.map Record.schema →
      ∀ r, Record.clusters j rs ≠ .ok [r])
    (assembled : assembleUnion j (Strict.candidates ts) = .ok c) : JoinedAll j ts c

theorem joinedAll_of_joinAllWith (h : Strict.joinAllWith j ts = .ok c) : JoinedAll j ts c := by
  unfold Strict.joinAllWith Strict.joinCandidates at h
  split at h
  · next compound =>
    have compound := List.any_eq_true.1 compound
    cases records : (Strict.candidates ts).mapM record? with
    | none =>
      rw [records] at h
      refine .union compound (fun rs heq => ?_) h
      rw [mapM_record?_eq_some.2 heq] at records
      cases records
    | some rs =>
      have heq := mapM_record?_eq_some.1 records
      simp only [records, Strict.joinRecords] at h
      cases clusters : Record.clusters j rs with
      | error reason => rw [clusters] at h; cases h
      | ok cs =>
        have several (count : ∀ r, cs ≠ [r]) (h : assembleUnion j (rs.map Record.schema) = .ok c) :
            JoinedAll j ts c := by
          refine .union compound (fun qs heq' r single => count r ?_) (heq ▸ h)
          have same := mapM_record?_eq_some.2 heq'
          rw [records] at same
          cases same
          exact Except.ok.inj (clusters.symm.trans single)
        rw [clusters] at h
        rcases cs with _ | ⟨r, _ | ⟨s, cs⟩⟩
        · exact several (by simp) h
        · exact .record heq clusters (Except.ok.inj h).symm
        · exact several (by simp) h
  · next plain =>
    exact .plain (by simpa using plain) h

section Plain

theorem mem_plainParts {t : Schema} :
    t ∈ plainParts ts ↔ t ∈ ts ∧ t.isCompound = false ∧ t ≠ null := by
  simp [plainParts]

theorem mem_compoundParts {p : Schema} :
    p ∈ compoundParts ts ↔ ∃ t ∈ ts, t.isCompound = true ∧ p ∈ t.branches := by
  simp [compoundParts, and_assoc]

variable {P : Schema → Prop} {R : Schema → Schema → Prop}

theorem Widens.joinList (widens : Widens j P R) (full : ts ≠ [])
    (good : ∀ t ∈ ts, P t) (plain : ∀ t ∈ ts, t.isCompound = false)
    (h : SchemaInference.joinList (joinPlain .strict j) ts = .ok c) :
    P c ∧ c.isCompound = false ∧ ∀ t ∈ ts, R t c := by
  cases ts with
  | nil => exact absurd rfl full
  | cons t rest =>
    have ht := good t List.mem_cons_self
    refine foldlM_invariant (fun seen c => P c ∧ c.isCompound = false ∧
      ∀ s ∈ t :: seen, R s c) h ⟨ht, plain t List.mem_cons_self, by simp [widens.refl ht]⟩ ?_
    rintro seen s later b d rfl ⟨hb, _, wider⟩ step
    obtain ⟨hd, hbd, hsd⟩ := widens.join hb (good s (by simp)) step
    refine ⟨hd, (isCompound_of_joinPlain step).2.2, fun u hu => ?_⟩
    rcases List.mem_append.1 (List.cons_append ▸ hu : u ∈ (t :: seen) ++ [s]) with hu | hu
    · exact widens.trans (wider u hu) hbd
    · cases List.mem_singleton.1 hu
      exact hsd

theorem Widens.joinList_or_null (widens : Widens j P R) (nothing : P null)
    (good : ∀ t ∈ ts, P t) (plain : ∀ t ∈ ts, t.isCompound = false)
    (h : SchemaInference.joinList (joinPlain .strict j) ts = .ok c) :
    P c ∧ c.isCompound = false ∧ ∀ t ∈ ts, R t c := by
  by_cases full : ts = []
  · subst full
    cases h
    exact ⟨nothing, rfl, by simp⟩
  · exact widens.joinList full good plain h

/-- There is one plain branch for all plain types, and none if there are no such types. -/
theorem Widens.plainBranch {branch : List Schema} (widens : Widens j P R)
    (good : ∀ t ∈ plainParts ts, P t)
    (h : SchemaInference.plainBranch j ts = .ok branch) :
    (plainParts ts = [] ∧ branch = []) ∨ ∃ b, branch = [b] ∧ P b ∧ b.isCompound = false ∧
      (∀ t ∈ plainParts ts, R t b) ∧ plainParts ts ≠ [] := by
  unfold SchemaInference.plainBranch at h
  split at h
  · next none => cases h; exact .inl ⟨none, rfl⟩
  · next some =>
    cases joined : SchemaInference.joinList (joinPlain .strict j) (plainParts ts) with
    | error reason => rw [joined] at h; cases h
    | ok b =>
      rw [joined] at h
      cases h
      obtain ⟨hb, flat, wider⟩ := widens.joinList some good
        (fun t ht => (mem_plainParts.1 ht).2.1) joined
      exact .inr ⟨b, rfl, hb, flat, wider, some⟩

theorem Widens.forall_mem_plainBranch {branch : List Schema} (widens : Widens j P R)
    (good : ∀ t ∈ plainParts ts, P t) (h : SchemaInference.plainBranch j ts = .ok branch) :
    ∀ b ∈ branch, P b ∧ b.isCompound = false := by
  rcases widens.plainBranch good h with ⟨_, rfl⟩ | ⟨b, rfl, hb, plain, _⟩
  · simp
  · exact List.forall_mem_singleton.2 ⟨hb, plain⟩

theorem isCompound_of_mem_plainBranch {branch : List Schema}
    (h : SchemaInference.plainBranch j ts = .ok branch) : ∀ b ∈ branch, b.isCompound = false :=
  fun b hb => ((widens_true j).forall_mem_plainBranch (fun _ _ => trivial) h b hb).2

end Plain

theorem forall_mem_compoundParts {Q : Schema → Prop} (h : ∀ t ∈ ts, ∀ b ∈ t.branches, Q b) :
    ∀ p ∈ compoundParts ts, Q p := by
  intro p hp
  obtain ⟨t, ht, _, hb⟩ := mem_compoundParts.1 hp
  exact h t ht p hb

/-- The branches of a union that are no records: those of the candidates and the plain one. -/
def simpleParts (ts plain : List Schema) : List Schema :=
  (compoundParts ts).filter (fun p => p.record?.isNone) ++ plain

def recordParts (ts : List Schema) : List Record := (compoundParts ts).filterMap record?

theorem mem_recordParts {r : Record} :
    r ∈ recordParts ts ↔ ∃ t ∈ ts, t.isCompound = true ∧ r.schema ∈ t.branches := by
  simp only [recordParts, List.mem_filterMap, mem_compoundParts]
  constructor
  · rintro ⟨p, ⟨t, ht, compound, hp⟩, hr⟩
    exact ⟨t, ht, compound, schema_of_record? hr ▸ hp⟩
  · rintro ⟨t, ht, compound, hp⟩
    exact ⟨r.schema, ⟨t, ht, compound, hp⟩, rfl⟩

section Parts
variable {P : Schema → Prop} {plain : List Schema}

theorem mem_simpleParts_of_branch {bs : List Schema} {p : Schema} (ht : .union bs ∈ ts)
    (hp : p ∈ bs) (other : p.record? = none) : p ∈ simpleParts ts plain := by
  apply List.mem_append_left
  exact List.mem_filter.2 ⟨mem_compoundParts.2 ⟨_, ht, rfl, hp⟩, by rw [other]; rfl⟩

/-- What holds of all branches and of the plain one holds of the simple parts. -/
theorem forall_mem_simpleParts (parts : ∀ p ∈ compoundParts ts, P p ∧ p.isUnion = false)
    (branch : ∀ b ∈ plain, P b ∧ b.isCompound = false) :
    ∀ p ∈ simpleParts ts plain, P p ∧ p.isCompound = false := by
  refine List.forall_mem_append.2 ⟨fun p hp => ?_, branch⟩
  obtain ⟨hp, notRecord⟩ := List.mem_filter.1 hp
  obtain ⟨good, flat⟩ := parts p hp
  exact ⟨good, isCompound_eq_false (Option.isNone_iff_eq_none.1 notRecord) flat⟩

theorem forall_mem_recordParts (parts : ∀ p ∈ compoundParts ts, P p ∧ p.isUnion = false) :
    ∀ r ∈ recordParts ts, P r.schema := by
  intro r hr
  exact (parts _ (mem_filterMap_record?.1 hr)).1

end Parts

theorem parts_of_plainBranch {plain : List Schema} (h : plainBranch j ts = .ok plain) :
    (compoundParts ts ++ plain).filterMap record? = recordParts ts ∧
      (compoundParts ts ++ plain).filter (fun p => p.record?.isNone) = simpleParts ts plain := by
  have simple : ∀ b ∈ plain, b.record? = none := fun b hb =>
    record?_eq_none (isCompound_of_mem_plainBranch h b hb)
  constructor
  · have none : plain.filterMap record? = [] := by
      simpa [List.filterMap_eq_nil_iff] using simple
    rw [List.filterMap_append, none, List.append_nil, recordParts]
  · have all : plain.filter (fun p => p.record?.isNone) = plain := by
      rw [List.filter_eq_self]
      exact fun b hb => by rw [simple b hb]; rfl
    rw [List.filter_append, all, simpleParts]

/-- The steps in which a union is put together. -/
theorem assembleUnion_eq_ok : assembleUnion j ts = .ok c ↔
    ∃ plain clusters table final, plainBranch j ts = .ok plain ∧
      Record.clusters j (recordParts ts) = .ok clusters ∧
      (simpleParts ts plain).foldlM (BranchTable.add j) [] = .ok table ∧
      table.addClusters j clusters = .ok final ∧ c = final.schema := by
  simp only [assembleUnion, bind_eq_ok, pure, Except.pure, Except.ok.injEq]
  constructor
  · rintro ⟨plain, hplain, clusters, hclusters, table, htable, final, hfinal, rfl⟩
    obtain ⟨records, simple⟩ := parts_of_plainBranch hplain
    rw [records] at hclusters
    rw [simple] at htable
    exact ⟨plain, clusters, table, final, hplain, hclusters, htable, hfinal, rfl⟩
  · rintro ⟨plain, clusters, table, final, hplain, hclusters, htable, hfinal, rfl⟩
    obtain ⟨records, simple⟩ := parts_of_plainBranch hplain
    rw [← records] at hclusters
    rw [← simple] at htable
    exact ⟨plain, hplain, clusters, hclusters, table, htable, final, hfinal, rfl⟩

theorem recordParts_of_flat (flat : ∀ t ∈ ts, t.isUnion = false) :
    recordParts ts = ts.filterMap record? := by
  induction ts with
  | nil => rfl
  | cons t rest ih =>
    obtain ⟨ht, hrest⟩ := List.forall_mem_cons.1 flat
    have later := ih hrest
    simp only [recordParts, compoundParts] at later ⊢
    cases t with
    | union bs => cases ht
    | record n fs =>
      rw [List.filter_cons_of_pos rfl, List.flatMap_cons, List.filterMap_append, later]
      rfl
    | _ => rwa [List.filter_cons_of_neg Bool.false_ne_true, List.filterMap_cons_none rfl]

theorem simpleParts_of_flat (flat : ∀ t ∈ ts, t.isUnion = false) (plain : List Schema) :
    simpleParts ts plain = plain := by
  have none : (compoundParts ts).filter (fun p => p.record?.isNone) = [] := by
    refine List.filter_eq_nil_iff.2 fun p hp => ?_
    obtain ⟨t, ht, compound, hb⟩ := mem_compoundParts.1 hp
    have ht := flat t ht
    cases t with
    | record n fs => cases List.mem_singleton.1 hb; simp [record?]
    | union bs => cases ht
    | _ => cases compound
  rw [simpleParts, none, List.nil_append]

/-- Every way in which a join comes about is a success of the strict join. -/
theorem JoinedAll.joinAllWith (h : JoinedAll j ts c) : Strict.joinAllWith j ts = .ok c := by
  cases h with
  | plain plain joined => rw [Strict.joinAllWith_of_plain plain, joined]
  | @record rs r records clusters eq =>
    cases rs with
    | nil => cases clusters
    | cons q rs =>
      rw [Strict.joinAllWith_of_records records, Strict.joinRecords, clusters, eq]
  | union compound several assembled =>
    rw [Strict.joinAllWith, Strict.joinCandidates, if_pos (List.any_eq_true.2 compound)]
    cases records : (Strict.candidates ts).mapM record? with
    | none => exact assembled
    | some rs =>
      have heq := mapM_record?_eq_some.1 records
      have flat : ∀ t ∈ Strict.candidates ts, t.isUnion = false := by
        rw [heq]
        exact List.forall_mem_map.2 fun _ _ => rfl
      obtain ⟨_, cs, _, _, _, hclusters, _⟩ := assembleUnion_eq_ok.1 assembled
      rw [recordParts_of_flat flat, heq] at hclusters
      rw [filterMap_record?_schema] at hclusters
      simp only [Strict.joinRecords, hclusters]
      rcases cs with _ | ⟨r, _ | ⟨s, cs⟩⟩
      · rwa [← heq]
      · exact absurd hclusters (several rs heq r)
      · rwa [← heq]

end SchemaInference
