import Mathlib.Data.List.Pairwise
import SchemaInference.Proofs.Collections
import SchemaInference.Proofs.Tables

/-!
# Clusters do not depend on the order of records

A cover of records is a family of records that do not overlap, each of the covered ones
being below one of them.  If the types of shared fields agree, the clusters of records are
the finest cover, which is unique.
-/

namespace SchemaInference

open Schema

namespace Record

/-- A family of records that do not overlap and are above the records `rs`. -/
structure Covers (rs ds : List Record) : Prop where
  canonical : ∀ d ∈ ds, d.schema.Canonical
  above : ∀ r ∈ rs, ∃ d ∈ ds, r.schema ≤ d.schema
  apart : ds.Pairwise fun a b => a.overlaps b = false

/-- The merge of some of the records `rs`. -/
structure IsCluster (rs : List Record) (c : Record) : Prop where
  merge : ∃ group, group ≠ [] ∧ (∀ r ∈ group, r ∈ rs) ∧ IsMergeOf group c
  fieldsNamed : c.FieldsNamed

/-- Records of one name whose shared fields agree, as low as a join requires. -/
structure Matching (level : Nat) (rs : List Record) : Prop where
  canonical : ∀ r ∈ rs, r.schema.Canonical
  low : ∀ r ∈ rs, r.schema.height ≤ level
  named : ∀ r ∈ rs, r.FieldsNamed
  consistent : ∀ r ∈ rs, ∀ q ∈ rs, r.Consistent True q

section Covers
variable {rs ds : List Record} {a b d : Record}

theorem Covers.overlaps_eq_false (h : Covers rs ds) (ha : a ∈ ds) (hb : b ∈ ds) (ne : a ≠ b) :
    a.overlaps b = false := by
  have symm : Std.Symm fun a b : Record => a.overlaps b = false :=
    ⟨fun a b hab => (overlaps_comm b a).trans hab⟩
  exact h.apart.forall ha hb ne

theorem Covers.eq_of_shared (h : Covers rs ds) (ha : a ∈ ds) (hb : b ∈ ds) {f : Text}
    (fa : (a.field? f).isSome) (fb : (b.field? f).isSome) : a = b := by
  by_contra ne
  have free := (overlaps_eq_false_iff.1 (h.overlaps_eq_false ha hb ne)).2.2 f fa
  rw [free] at fb
  cases fb

theorem Covers.eq_of_le (h : Covers rs ds) (ha : a ∈ ds) (hb : b ∈ ds)
    (hab : a.schema ≤ b.schema) : a = b := by
  by_contra ne
  obtain ⟨full, _, free⟩ := overlaps_eq_false_iff.1 (h.overlaps_eq_false ha hb ne)
  refine full (fields_eq_nil_iff.2 fun f => ?_)
  cases found : a.field? f with
  | none => rfl
  | some s =>
    have asc := (canonical_schema.1 (h.canonical a ha)).1
    obtain ⟨t, foundb, _⟩ := ((schema_le_schema asc).1 hab).2 f s found
    cases (free f (by simp [found])).symm.trans foundb

theorem Covers.exists_above (h : Covers rs ds) (ha : a.schema.Canonical)
    (hb : b.schema.Canonical) (name : a.name = b.name) (overlap : a.overlaps b = true)
    (belowa : ∃ d ∈ ds, a.schema ≤ d.schema) (belowb : ∃ d ∈ ds, b.schema ≤ d.schema) :
    ∃ d ∈ ds, a.schema ≤ d.schema ∧ b.schema ≤ d.schema := by
  obtain ⟨d, hd, had⟩ := belowa
  obtain ⟨e, he, hbe⟩ := belowb
  have asca := (canonical_schema.1 ha).1
  have ascb := (canonical_schema.1 hb).1
  obtain ⟨named, fieldsd⟩ := (schema_le_schema asca).1 had
  obtain ⟨namee, fieldse⟩ := (schema_le_schema ascb).1 hbe
  rcases overlaps_iff.1 overlap with empty | empty | ⟨f, fa, fb⟩
  · refine ⟨e, he, (schema_le_schema asca).2 ⟨name.trans namee, fun f s found => ?_⟩, hbe⟩
    cases (fields_eq_nil_iff.1 empty f).symm.trans found
  · refine ⟨d, hd, had, (schema_le_schema ascb).2 ⟨name.symm.trans named, fun f s found => ?_⟩⟩
    cases (fields_eq_nil_iff.1 empty f).symm.trans found
  · obtain ⟨s, hs⟩ := Option.isSome_iff_exists.1 fa
    obtain ⟨t, ht⟩ := Option.isSome_iff_exists.1 fb
    obtain ⟨u, hu, _⟩ := fieldsd f s hs
    obtain ⟨v, hv, _⟩ := fieldse f t ht
    cases h.eq_of_shared hd he (f := f) (by simp [hu]) (by simp [hv])
    exact ⟨d, hd, had, hbe⟩

theorem Covers.nodup (h : Covers rs ds) : ds.Nodup := by
  refine h.apart.imp fun {a b} apart heq => ?_
  rw [heq, overlaps_self] at apart
  cases apart

theorem Covers.perm {qs : List Record} (h : Covers rs ds) (perm : rs.Perm qs) : Covers qs ds where
  canonical := h.canonical
  above q hq := h.above q (perm.mem_iff.2 hq)
  apart := h.apart

end Covers

section Matching
variable {j : Join} {level : Nat} {rs qs cs ds : List Record} {a b c : Record}

namespace IsCluster

theorem single (hr : Matching level rs) (ha : a ∈ rs) : IsCluster rs a :=
  ⟨⟨[a], by simp, by simpa using ha, .single (hr.canonical a ha)⟩, hr.named a ha⟩

theorem canonical (h : IsCluster rs c) : c.schema.Canonical := by
  obtain ⟨⟨group, _, _, merged⟩, _⟩ := h
  exact merged.isJoinOf.canonical

theorem low (hr : Matching level rs) (h : IsCluster rs c) : c.schema.height ≤ level := by
  obtain ⟨⟨group, _, sub, merged⟩, _⟩ := h
  apply merged.isJoinOf.height_le
  exact List.forall_mem_map.2 fun r hr' => hr.low r (sub r hr')

theorem consistent (hr : Matching level rs) (ha : IsCluster rs a) (hb : IsCluster rs b) :
    a.Consistent True b := by
  have canonicala := ha.canonical
  have canonicalb := hb.canonical
  obtain ⟨⟨group, _, sub, mergeda⟩, _⟩ := ha
  obtain ⟨⟨group', _, sub', mergedb⟩, _⟩ := hb
  apply mergeda.consistent True b canonicalb
  intro r hr₁
  have canonicalr := hr.canonical r (sub r hr₁)
  apply Consistent.symm canonicalb canonicalr
  apply mergedb.consistent True r canonicalr
  exact fun q hq => hr.consistent q (sub' q hq) r (sub r hr₁)

theorem fieldsNamed_merge (hj : Joins j level) (hr : Matching level rs) (ha : IsCluster rs a)
    (hb : IsCluster rs b) (merged : a.merge j b = .ok c) : c.FieldsNamed := by
  intro f m gs found
  have bound := hj.fieldJoin ha.canonical hb.canonical (ha.low hr) (hb.low hr)
    (ha.consistent hr hb) merged f _ found
  -- a record is above records and null only, and not all of the types can be null
  have notNull : ∃ t ∈ [a, b].filterMap (·.field? f), t ≠ null := by
    by_contra none
    have all : ∀ t ∈ [a, b].filterMap (·.field? f), t ≤ null := by
      intro t ht
      by_contra ne
      exact none ⟨t, ht, fun heq => ne (heq ▸ null_le null)⟩
    cases le_null_iff.1 (bound.least null all)
  obtain ⟨t, ht, ne⟩ := notNull
  have below := bound.upper t ht
  cases t with
  | primitive k =>
    rcases primitive_le_iff.1 below with rfl | ⟨_, heq, _⟩
    · exact absurd rfl ne
    · cases heq
  | array n s =>
    obtain ⟨_, _, heq, _⟩ := array_le_iff.1 below
    cases heq
  | record n fs =>
    obtain ⟨_, heq, _⟩ := record_le_iff.1 below
    cases heq
    obtain ⟨q, hq, found⟩ := List.mem_filterMap.1 ht
    rcases (show q = a ∨ q = b by simpa using hq) with rfl | rfl
    · exact ha.fieldsNamed f m fs found
    · exact hb.fieldsNamed f m fs found
  | union bs => cases union_le_iff.1 below

theorem merge_spec (hj : Joins j level) (hr : Matching level rs) (ha : IsCluster rs a)
    (hb : IsCluster rs b) (merged : a.merge j b = .ok c) :
    IsCluster rs c ∧ IsMergeOf [a, b] c := by
  have step : IsMergeOf [a, b] c := hj.isMergeOf ha.canonical hb.canonical (ha.low hr)
    (hb.low hr) (ha.consistent hr hb) merged
  have named := fieldsNamed_merge hj hr ha hb merged
  obtain ⟨⟨group, full, sub, mergeda⟩, _⟩ := ha
  obtain ⟨⟨group', _, sub', mergedb⟩, _⟩ := hb
  refine ⟨⟨⟨group ++ group', by simp [full], ?_, mergeda.append mergedb step⟩, named⟩, step⟩
  intro r hr
  rcases List.mem_append.1 hr with hr | hr
  · exact sub r hr
  · exact sub' r hr

end IsCluster

theorem Matching.grows (hj : Joins j level) (hr : Matching level rs) :
    Grows j (IsCluster rs) fun a b => a.schema ≤ b.schema where
  refl ha := le_refl ha.canonical
  trans := le_trans
  merge ha hb _ merged := by
    obtain ⟨hc, step⟩ := IsCluster.merge_spec hj hr ha hb merged
    obtain ⟨hac, hbc⟩ := forall_mem_pair.1 step.isJoinOf.upper
    exact ⟨hc, hac, hbc⟩

theorem Matching.covers (hj : Joins j level) (hr : Matching level rs)
    (h : clusters j rs = .ok cs) : Covers rs cs ∧ ∀ c ∈ cs, IsCluster rs c := by
  obtain ⟨isCluster, above⟩ := (hr.grows hj).clusters h fun r hmem => .single hr hmem
  exact ⟨⟨fun c hc => (isCluster c hc).canonical, above, pairwise_clusters h⟩, isCluster⟩

/-- Every cluster is below some record of every cover. -/
theorem Matching.exists_above (hj : Joins j level) (hr : Matching level rs)
    (h : clusters j rs = .ok cs) (cover : Covers rs ds) (hc : c ∈ cs) :
    ∃ d ∈ ds, c.schema ≤ d.schema := by
  have grows : Grows j (fun c => IsCluster rs c ∧ ∃ d ∈ ds, c.schema ≤ d.schema)
      fun _ _ => True := by
    refine ⟨fun _ => trivial, fun _ _ => trivial, ?_⟩
    rintro a b c ⟨ha, belowa⟩ ⟨hb, belowb⟩ overlap merged
    obtain ⟨hc, step⟩ := IsCluster.merge_spec hj hr ha hb merged
    obtain ⟨d, hd, bounds⟩ := cover.exists_above ha.canonical hb.canonical
      (ha.consistent hr hb).1 overlap belowa belowb
    exact ⟨⟨hc, d, hd, step.isJoinOf.least d.schema (forall_mem_pair.2 bounds)⟩, trivial, trivial⟩
  exact ((grows.clusters h fun r hmem => ⟨.single hr hmem, cover.above r hmem⟩).1 c hc).2

theorem Matching.exists_clusters (hj : Joins j level) (hr : Matching level rs)
    (cover : Covers rs ds) : ∃ cs, clusters j rs = .ok cs := by
  refine Record.exists_clusters (P := fun c => IsCluster rs c ∧ ∃ d ∈ ds, c.schema ≤ d.schema)
    ?_ fun r hmem => ⟨.single hr hmem, cover.above r hmem⟩
  rintro a b ⟨ha, belowa⟩ ⟨hb, belowb⟩ overlap
  have consistent := ha.consistent hr hb
  obtain ⟨d, hd, hle, hle'⟩ := cover.exists_above ha.canonical hb.canonical consistent.1 overlap
    belowa belowb
  have agree := (agree_schema.2 ⟨consistent, overlap⟩).mergeable_of_le hle hle'
  obtain ⟨c, merged⟩ := hj.exists_merge ha.canonical hb.canonical (ha.low hr) (hb.low hr)
    (agree_schema.1 agree).1
  obtain ⟨hc, step⟩ := IsCluster.merge_spec hj hr ha hb merged
  exact ⟨c, merged, hc, d, hd, step.isJoinOf.least d.schema (forall_mem_pair.2 ⟨hle, hle'⟩)⟩

theorem Matching.of_forall_mem (hr : Matching level rs) (sub : ∀ q ∈ qs, q ∈ rs) :
    Matching level qs where
  canonical q hq := hr.canonical q (sub q hq)
  low q hq := hr.low q (sub q hq)
  named q hq := hr.named q (sub q hq)
  consistent q hq q' hq' := hr.consistent q (sub q hq) q' (sub q' hq')

theorem Matching.clusters_perm (hj : Joins j level) (hr : Matching level rs) (perm : rs.Perm qs)
    (h : clusters j rs = .ok cs) : ∃ ds, clusters j qs = .ok ds ∧ cs.Perm ds := by
  have hq := hr.of_forall_mem fun q => perm.mem_iff.2
  have cover := (hr.covers hj h).1
  obtain ⟨ds, h'⟩ := hq.exists_clusters hj (cover.perm perm)
  have cover' := (hq.covers hj h').1
  refine ⟨ds, h', (List.perm_ext_iff_of_nodup cover.nodup cover'.nodup).2 fun c => ?_⟩
  have same {rs qs cs ds : List Record} (hr : Matching level rs) (hq : Matching level qs)
      (perm : rs.Perm qs) (h : clusters j rs = .ok cs) (h' : clusters j qs = .ok ds)
      {c : Record} (hc : c ∈ cs) : c ∈ ds := by
    have cover := (hr.covers hj h).1
    have cover' := (hq.covers hj h').1
    obtain ⟨d, hd, hcd⟩ := hr.exists_above hj h (cover'.perm perm.symm) hc
    obtain ⟨e, he, hde⟩ := hq.exists_above hj h' (cover.perm perm) hd
    cases cover.eq_of_le hc he (le_trans hcd hde)
    have heq := le_antisymm (cover.canonical c hc) (cover'.canonical d hd) hcd hde
    have heq : c = d := by simpa using congrArg record? heq
    exact heq ▸ hd
  exact ⟨same hr hq perm h h', same hq hr perm.symm h' h⟩

end Matching

end Record

end SchemaInference
