import SchemaInference.Proofs.Agreement
import SchemaInference.Proofs.Folds

/-!
# Clusters of records

Clustering loses no record: what merging keeps holds of the clusters, and every record
has grown into one of them.  No two clusters overlap.  Records that all overlap form one
cluster, which is then the merge of all of them in their order.
-/

namespace SchemaInference.Record

variable {j : Join}

section Overlap
variable {a b c r : Record}

theorem overlaps_eq_false_iff : a.overlaps b = false ↔
    a.fields ≠ [] ∧ b.fields ≠ [] ∧ ∀ f, (a.field? f).isSome → b.field? f = none := by
  rw [← Bool.not_eq_true, overlaps_iff]
  simp [not_or]

theorem fields_eq_nil_iff : a.fields = [] ↔ ∀ f, a.field? f = none := by
  constructor
  · intro h f
    simp [field?, h]
  · intro h
    refine List.eq_nil_iff_forall_not_mem.2 fun member hmem => ?_
    obtain ⟨s, found⟩ := exists_lookup_of_mem hmem
    cases (h member.1).symm.trans found

theorem isSome_lookup_sortFields {fields : List (Text × Schema)} {f : Text} :
    ((sortFields fields).lookup f).isSome ↔ (fields.lookup f).isSome := by
  have go : ∀ rest sorted : List (Text × Schema),
      ((rest.foldl (fun sorted f => putField f.1 f.2 sorted) sorted).lookup f).isSome ↔
        (rest.lookup f).isSome ∨ (sorted.lookup f).isSome := by
    intro rest
    induction rest with
    | nil => simp
    | cons entry rest ih =>
      intro sorted
      rw [List.foldl_cons, ih, lookup_putField, lookup_cons_ite]
      by_cases heq : f = entry.1 <;> simp [heq]
  simpa [sortFields] using go fields []

theorem isSome_lookup_mergeFields {owner f : Text} {present added fields : List (Text × Schema)}
    (h : mergeFields j owner present added = .ok fields) :
    (fields.lookup f).isSome ↔ (present.lookup f).isSome ∨ (added.lookup f).isSome := by
  induction added generalizing present with
  | nil => cases h; simp
  | cons entry rest ih =>
    obtain ⟨name, t⟩ := entry
    have put (u : Schema) (h : mergeFields j owner (putField name u present) rest = .ok fields) :
        (fields.lookup f).isSome ↔
          (present.lookup f).isSome ∨ (((name, t) :: rest).lookup f).isSome := by
      rw [ih h, lookup_putField, lookup_cons_ite]
      by_cases heq : f = name <;> simp [heq]
    simp only [mergeFields] at h
    split at h
    · exact put t h
    split at h
    · exact put _ h
    · cases h

theorem field?_isSome_merge (h : a.merge j b = .ok c) (f : Text) :
    (c.field? f).isSome ↔ (a.field? f).isSome ∨ (b.field? f).isSome := by
  unfold merge at h
  cases merged : mergeFields j a.name (sortFields a.fields) b.fields with
  | error reason => rw [merged] at h; cases h
  | ok fields =>
    rw [merged] at h
    cases h
    exact (isSome_lookup_mergeFields merged).trans (or_congr_left isSome_lookup_sortFields)

theorem overlaps_merge_eq_false (h : a.merge j b = .ok c) (apart : r.overlaps a = false)
    (apart' : r.overlaps b = false) : r.overlaps c = false := by
  obtain ⟨full, fulla, freea⟩ := overlaps_eq_false_iff.1 apart
  obtain ⟨_, _, freeb⟩ := overlaps_eq_false_iff.1 apart'
  have present := field?_isSome_merge h
  refine overlaps_eq_false_iff.2 ⟨full, fun empty => fulla ?_, fun f hf => ?_⟩
  · refine fields_eq_nil_iff.2 fun f => Option.not_isSome_iff_eq_none.1 fun hf => ?_
    have := (present f).2 (.inl hf)
    simp [fields_eq_nil_iff.1 empty f] at this
  · refine Option.not_isSome_iff_eq_none.1 fun hc => ?_
    rcases (present f).1 hc with hc | hc
    · simp [freea f hf] at hc
    · simp [freeb f hf] at hc

/-- What overlaps records that have certain fields between them overlaps one that has these. -/
theorem overlaps_of_forall {rs : List Record}
    (fields : ∀ f, (c.field? f).isSome ↔ ∃ a ∈ rs, (a.field? f).isSome)
    (overlap : ∀ a ∈ rs, a.overlaps r = true) : c.overlaps r = true := by
  rw [overlaps_iff]
  by_cases shared : ∃ a ∈ rs, ∃ f, (a.field? f).isSome ∧ (r.field? f).isSome
  · obtain ⟨a, ha, f, used, hr⟩ := shared
    exact .inr (.inr ⟨f, (fields f).2 ⟨a, ha, used⟩, hr⟩)
  by_cases vacant : r.fields = []
  · exact .inr (.inl vacant)
  -- none shares a field with `r`, so all are empty
  refine .inl (fields_eq_nil_iff.2 fun f => Option.not_isSome_iff_eq_none.1 fun used => ?_)
  obtain ⟨a, ha, used⟩ := (fields f).1 used
  rcases overlaps_iff.1 (overlap a ha) with empty | empty | meets
  · simp [fields_eq_nil_iff.1 empty f] at used
  · exact vacant empty
  · exact shared ⟨a, ha, meets⟩

theorem overlaps_merge (h : a.merge j b = .ok c) (overlapa : a.overlaps r = true)
    (overlapb : b.overlaps r = true) : c.overlaps r = true := by
  have fields : ∀ f, (c.field? f).isSome ↔ ∃ q ∈ [a, b], (q.field? f).isSome :=
    fun f => by simpa using field?_isSome_merge h f
  exact overlaps_of_forall fields (by simp [overlapa, overlapb])

end Overlap

/-- What merging records that overlap keeps: `P` holds of the merge, and both grow into it. -/
structure Grows (j : Join) (P : Record → Prop) (R : Record → Record → Prop) : Prop where
  refl : ∀ {a}, P a → R a a
  trans : ∀ {a b c}, R a b → R b c → R a c
  merge : ∀ {a b c}, P a → P b → a.overlaps b = true → a.merge j b = .ok c →
    P c ∧ R a c ∧ R b c

section Absorb
variable {P : Record → Prop} {R : Record → Record → Prop} {r merged : Record}
  {present others : List Record}

theorem Grows.absorb (grows : Grows j P R) (h : absorb j r present = .ok (others, merged))
    (hr : P r) (hp : ∀ p ∈ present, P p) :
    P merged ∧ R r merged ∧ (∀ o ∈ others, o ∈ present) ∧
      ∀ p ∈ present, p ∈ others ∨ R p merged := by
  induction present generalizing r others merged with
  | nil =>
    cases h
    exact ⟨hr, grows.refl hr, by simp, by simp⟩
  | cons c rest ih =>
    obtain ⟨hc, hrest⟩ := List.forall_mem_cons.1 hp
    simp only [Record.absorb] at h
    split at h
    · next overlap =>
      split at h
      · next m joined =>
        obtain ⟨hm, growc, growr⟩ := grows.merge hc hr overlap joined
        obtain ⟨hmerged, growm, from_rest, kept⟩ := ih h hm hrest
        refine ⟨hmerged, grows.trans growr growm, fun o ho => ?_, ?_⟩
        · exact List.mem_cons_of_mem _ (from_rest o ho)
        · exact List.forall_mem_cons.2 ⟨.inr (grows.trans growc growm), kept⟩
      · cases h
    · split at h
      · next left m absorbed =>
        cases h
        obtain ⟨hmerged, growr, from_rest, kept⟩ := ih absorbed hr hrest
        refine ⟨hmerged, growr, ?_, ?_⟩
        · refine List.forall_mem_cons.2 ⟨List.mem_cons_self, fun o ho => ?_⟩
          exact List.mem_cons_of_mem _ (from_rest o ho)
        · refine List.forall_mem_cons.2 ⟨.inl List.mem_cons_self, fun p hmem => ?_⟩
          exact (kept p hmem).imp_left (List.mem_cons_of_mem _)
      · cases h

theorem overlaps_absorb (h : absorb j r present = .ok (others, merged))
    (apart : present.Pairwise fun a b => a.overlaps b = false) :
    others.Pairwise (fun a b => a.overlaps b = false) ∧
      ∀ o ∈ others, o.overlaps merged = false := by
  induction present generalizing r others merged with
  | nil =>
    cases h
    simp
  | cons c rest ih =>
    obtain ⟨apartc, apart⟩ := List.pairwise_cons.1 apart
    simp only [absorb] at h
    split at h
    · split at h
      · exact ih h apart
      · cases h
    · next free =>
      split at h
      · next left m absorbed =>
        cases h
        obtain ⟨pairwise, hmerged⟩ := ih absorbed apart
        -- what `c` does not overlap grows into what `c` does not overlap
        have grows : Grows j (fun a => c.overlaps a = false) fun _ _ => True :=
          ⟨fun _ => trivial, fun _ _ => trivial, fun fa fb _ joined =>
            ⟨overlaps_merge_eq_false joined fa fb, trivial, trivial⟩⟩
        obtain ⟨freem, _, from_rest, _⟩ := grows.absorb absorbed (eq_false_of_ne_true free) apartc
        exact ⟨List.pairwise_cons.2 ⟨fun o ho => apartc o (from_rest o ho), pairwise⟩,
          List.forall_mem_cons.2 ⟨freem, hmerged⟩⟩
      · cases h

end Absorb

section Clusters
variable {P : Record → Prop} {R : Record → Record → Prop} {rs cs : List Record}

theorem addToClusters_eq_ok {present : List Record} {r : Record} :
    addToClusters j present r = .ok cs ↔
      ∃ others merged, absorb j r present = .ok (others, merged) ∧ cs = others ++ [merged] := by
  simp only [addToClusters]
  split
  · next others merged absorbed =>
    simp only [Except.ok.injEq, absorbed, Prod.mk.injEq]
    grind
  · next absorbed => simp [absorbed]

/-- Every cluster has what merging keeps, and every record has grown into a cluster. -/
theorem Grows.clusters (grows : Grows j P R) (h : clusters j rs = .ok cs)
    (hr : ∀ r ∈ rs, P r) : (∀ c ∈ cs, P c) ∧ ∀ r ∈ rs, ∃ c ∈ cs, R r c := by
  refine foldlM_invariant
    (fun seen cs => (∀ c ∈ cs, P c) ∧ ∀ r ∈ seen, ∃ c ∈ cs, R r c) h (by simp) ?_
  intro seen r rest present added whole ⟨hpresent, covered⟩ hadd
  obtain ⟨others, merged, absorbed, rfl⟩ := addToClusters_eq_ok.1 hadd
  obtain ⟨hmerged, growr, from_present, kept⟩ :=
    grows.absorb absorbed (hr r (by simp [← whole])) hpresent
  refine ⟨?_, ?_⟩
  · intro c hc
    rcases List.mem_append.1 hc with hc | hc
    · exact hpresent c (from_present c hc)
    · cases List.mem_singleton.1 hc; exact hmerged
  · intro s hs
    rcases List.mem_append.1 hs with hs | hs
    · obtain ⟨c, hc, grow⟩ := covered s hs
      rcases kept c hc with left | growc
      · exact ⟨c, List.mem_append_left _ left, grow⟩
      · exact ⟨merged, by simp, grows.trans grow growc⟩
    · cases List.mem_singleton.1 hs
      exact ⟨merged, by simp, growr⟩

theorem exists_clusters (total : ∀ a b, P a → P b → a.overlaps b = true →
    ∃ c, a.merge j b = .ok c ∧ P c) (hr : ∀ r ∈ rs, P r) : ∃ cs, clusters j rs = .ok cs := by
  have absorbs (present : List Record) : ∀ r, P r → (∀ p ∈ present, P p) →
      ∃ others merged, absorb j r present = .ok (others, merged) ∧ P merged ∧
        ∀ o ∈ others, P o := by
    induction present with
    | nil => exact fun r hr _ => ⟨[], r, rfl, hr, by simp⟩
    | cons c rest ih =>
      intro r hr hp
      obtain ⟨hc, hrest⟩ := List.forall_mem_cons.1 hp
      by_cases overlap : c.overlaps r = true
      · obtain ⟨m, joined, hm⟩ := total c r hc hr overlap
        obtain ⟨others, merged, absorbed, kept⟩ := ih m hm hrest
        exact ⟨others, merged, by simp [absorb, overlap, joined, absorbed], kept⟩
      · obtain ⟨others, merged, absorbed, hm, ho⟩ := ih r hr hrest
        exact ⟨c :: others, merged, by simp [absorb, overlap, absorbed], hm,
          List.forall_mem_cons.2 ⟨hc, ho⟩⟩
  refine (exists_foldlM (fun _ cs => ∀ c ∈ cs, P c) (by simp) ?_).imp fun _ h => h.1
  intro seen r rest present whole hpresent
  obtain ⟨others, merged, absorbed, hm, ho⟩ := absorbs present r (hr r (by simp [← whole])) hpresent
  refine ⟨others ++ [merged], addToClusters_eq_ok.2 ⟨others, merged, absorbed, rfl⟩, ?_⟩
  intro c hc
  rcases List.mem_append.1 hc with hc | hc
  · exact ho c hc
  · cases List.mem_singleton.1 hc
    exact hm

theorem pairwise_clusters (h : clusters j rs = .ok cs) :
    cs.Pairwise fun a b => a.overlaps b = false := by
  refine foldlM_invariant (fun _ cs => cs.Pairwise fun a b => a.overlaps b = false) h .nil ?_
  intro seen r rest present added whole apart hadd
  obtain ⟨others, merged, absorbed, rfl⟩ := addToClusters_eq_ok.1 hadd
  obtain ⟨pairwise, free⟩ := overlaps_absorb absorbed apart
  refine List.pairwise_append.2 ⟨pairwise, List.pairwise_singleton _ _, ?_⟩
  intro o ho m hm
  cases List.mem_singleton.1 hm
  exact free o ho

theorem foldlM_addToClusters_of_overlapping {r : Record}
    (meets : ∀ a ∈ rs, r.overlaps a = true)
    (overlap : ∀ a ∈ rs, ∀ b ∈ rs, a.overlaps b = true) :
    rs.foldlM (addToClusters j) [r] = (rs.foldlM (merge j) r).map ([·]) := by
  induction rs generalizing r with
  | nil => rfl
  | cons s rest ih =>
    have met := meets s List.mem_cons_self
    rw [List.foldlM_cons, List.foldlM_cons]
    cases joined : r.merge j s with
    | error reason => simp [addToClusters, absorb, met, joined, bind, Except.bind, Except.map]
    | ok m =>
      simp only [addToClusters, absorb, met, joined, if_true, bind, Except.bind, List.nil_append]
      refine ih (fun a ha => ?_) fun a ha b hb =>
        overlap a (List.mem_cons_of_mem _ ha) b (List.mem_cons_of_mem _ hb)
      exact overlaps_merge joined (meets a (List.mem_cons_of_mem _ ha))
        (overlap s List.mem_cons_self a (List.mem_cons_of_mem _ ha))

/-- Records that all overlap form one cluster, their merge from left to right. -/
theorem clusters_of_overlapping {r : Record}
    (overlap : ∀ a ∈ r :: rs, ∀ b ∈ r :: rs, a.overlaps b = true) :
    clusters j (r :: rs) = (rs.foldlM (merge j) r).map ([·]) := by
  refine foldlM_addToClusters_of_overlapping (fun a ha => ?_) fun a ha b hb => ?_
  · exact overlap r List.mem_cons_self a (List.mem_cons_of_mem _ ha)
  · exact overlap a (List.mem_cons_of_mem _ ha) b (List.mem_cons_of_mem _ hb)

theorem exists_single_of_overlapping (overlap : ∀ a ∈ rs, ∀ b ∈ rs, a.overlaps b = true)
    (full : rs ≠ []) (h : clusters j rs = .ok cs) : ∃ c, cs = [c] := by
  obtain ⟨r, others, rfl⟩ := List.exists_cons_of_ne_nil full
  rw [clusters_of_overlapping overlap] at h
  cases merged : others.foldlM (merge j) r with
  | error reason => rw [merged] at h; cases h
  | ok c =>
    rw [merged] at h
    cases h
    exact ⟨c, rfl⟩

end Clusters

end SchemaInference.Record
