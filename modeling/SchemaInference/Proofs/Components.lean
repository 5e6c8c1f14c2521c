import Mathlib.Combinatorics.SimpleGraph.Connectivity.Connected
import SchemaInference.Join
import SchemaInference.Proofs.Clusters
import SchemaInference.Proofs.Majorities

/-!
# Clusters are connected components

Records that have fields are linked if they share a field name.  The clusters of a list
of records do not share a name, and their names are those of the connected components of
that graph, whatever the order of the records is and however the types of shared fields
are joined.  Records without fields overlap all others but link none.
-/

namespace SchemaInference.Record

variable {j : Join} {rs cs qs ds : List Record} {a b c r : Record} {f : Text}

section Names

theorem mem_names : f ∈ r.names ↔ (r.field? f).isSome := mem_fieldNames

theorem names_eq_nil_iff : r.names = [] ↔ r.fields = [] := by
  rw [fields_eq_nil_iff, List.eq_nil_iff_forall_not_mem]
  simp [mem_names]

theorem exists_mem_names (full : r.fields ≠ []) : ∃ f, f ∈ r.names :=
  List.exists_mem_of_ne_nil _ (names_eq_nil_iff.not.2 full)

theorem fields_ne_nil_of_mem_names (h : f ∈ r.names) : r.fields ≠ [] := by
  intro empty
  rw [names_eq_nil_iff.2 empty] at h
  cases h

theorem mem_names_merge (h : a.merge j b = .ok c) : f ∈ c.names ↔ f ∈ a.names ∨ f ∈ b.names := by
  simpa only [mem_names] using field?_isSome_merge h f

theorem not_mem_names_of_apart (apart : a.overlaps b = false) (ha : f ∈ a.names) :
    f ∉ b.names := by
  intro hb
  have free := (overlaps_eq_false_iff.1 apart).2.2 f (mem_names.1 ha)
  have found := mem_names.1 hb
  rw [free] at found
  cases found

/-- Records with the same field names list them in the same order. -/
theorem names_eq_of_mem_iff (same : ∀ f, f ∈ a.names ↔ f ∈ b.names) : a.names = b.names := by
  have nodup (r : Record) : r.names.Nodup := (fieldNames_pairwise r.fields).imp Text.ne_of_lt
  have perm := (List.perm_ext_iff_of_nodup (nodup a) (nodup b)).2 same
  refine perm.eq_of_pairwise (fun f g _ _ hfg hgf => ?_) (fieldNames_pairwise a.fields)
    (fieldNames_pairwise b.fields)
  exact absurd (Std.lt_trans hfg hgf) Std.lt_irrefl

end Names

/-- The records of a list that have fields. -/
def filled (rs : List Record) : Set Record := {r | r ∈ rs ∧ r.fields ≠ []}

/-- The graph that joins two records if they share a field name. -/
def overlapGraph (S : Set Record) : SimpleGraph S where
  Adj a b := a ≠ b ∧ ∃ f ∈ a.1.names, f ∈ b.1.names
  symm := ⟨fun _ _ ⟨ne, f, ha, hb⟩ => ⟨ne.symm, f, hb, ha⟩⟩
  loopless := ⟨fun _ h => h.1 rfl⟩

/-- The field names of the records of a connected component. -/
def componentNames (S : Set Record) (C : (overlapGraph S).ConnectedComponent) : Set Text :=
  {f | ∃ r : S, (overlapGraph S).connectedComponentMk r = C ∧ f ∈ r.1.names}

theorem reachable_of_shared {S : Set Record} {a b : S} (ha : f ∈ a.1.names) (hb : f ∈ b.1.names) :
    (overlapGraph S).Reachable a b := by
  by_cases same : a = b
  · rw [same]
  · exact SimpleGraph.Adj.reachable ⟨same, f, ha, hb⟩

/--
What holds of every cluster: its names are names of the records, and the records that
have any of them are connected.
-/
structure IsConnected (rs : List Record) (c : Record) : Prop where
  source : ∀ f ∈ c.names, ∃ r ∈ rs, f ∈ r.names
  linked : ∀ r q : filled rs, ∀ f ∈ c.names, f ∈ r.1.names → ∀ g ∈ c.names, g ∈ q.1.names →
    (overlapGraph (filled rs)).Reachable r q

theorem isConnected_of_mem (h : r ∈ rs) : IsConnected rs r where
  source f hf := ⟨r, h, hf⟩
  linked q q' f hf hq g hg hq' := by
    have center : r ∈ filled rs := ⟨h, fields_ne_nil_of_mem_names hf⟩
    have left := reachable_of_shared (b := ⟨r, center⟩) hq hf
    exact left.trans (reachable_of_shared hg hq')

/-- A record that two connected records share a name with connects them. -/
theorem IsConnected.linked_across (ha : IsConnected rs a) (hb : IsConnected rs b)
    (overlap : a.overlaps b = true) {r q : filled rs} {g : Text} (hfa : f ∈ a.names)
    (hfr : f ∈ r.1.names) (hgb : g ∈ b.names) (hgq : g ∈ q.1.names) :
    (overlapGraph (filled rs)).Reachable r q := by
  rcases overlaps_iff.1 overlap with empty | empty | ⟨h, hha, hhb⟩
  · exact absurd empty (fields_ne_nil_of_mem_names hfa)
  · exact absurd empty (fields_ne_nil_of_mem_names hgb)
  · have hha := mem_names.2 hha
    obtain ⟨m, hm, hhm⟩ := ha.source h hha
    have left := ha.linked r ⟨m, hm, fields_ne_nil_of_mem_names hhm⟩ f hfa hfr h hha hhm
    exact left.trans (hb.linked _ q h (mem_names.2 hhb) hhm g hgb hgq)

/-- Merging records that overlap keeps them connected, and no name is lost. -/
theorem grows_isConnected (j : Join) (rs : List Record) :
    Grows j (IsConnected rs) fun a c => ∀ f ∈ a.names, f ∈ c.names where
  refl _ _ hf := hf
  trans hab hbc f hf := hbc f (hab f hf)
  merge := by
    intro a b c ha hb overlap merged
    have names (f : Text) := mem_names_merge (f := f) merged
    refine ⟨⟨fun f hf => ?_, ?_⟩, fun f hf => (names f).2 (.inl hf), fun f hf =>
      (names f).2 (.inr hf)⟩
    · exact ((names f).1 hf).elim (ha.source f) (hb.source f)
    · intro r q f hf hfr g hg hgq
      rcases (names f).1 hf with hfa | hfb
      · rcases (names g).1 hg with hga | hgb
        · exact ha.linked r q f hfa hfr g hga hgq
        · exact ha.linked_across hb overlap hfa hfr hgb hgq
      · rcases (names g).1 hg with hga | hgb
        · exact (ha.linked_across hb overlap hga hgq hfb hfr).symm
        · exact hb.linked r q f hfb hfr g hgb hgq

/--
The records `cs` stand for the connected components of the records `rs`: they share no
name, none is empty unless it is the only one, and their names are those of the components.
-/
structure AreComponents (rs cs : List Record) : Prop where
  apart : cs.Pairwise fun a b => ∀ f ∈ a.names, f ∉ b.names
  alone : ∀ c ∈ cs, c.fields = [] → cs = [c]
  partition : (∃ r ∈ rs, r.fields ≠ []) →
    {N : Set Text | ∃ c ∈ cs, {f | f ∈ c.names} = N} = Set.range (componentNames (filled rs))
  empty : rs ≠ [] → (∀ r ∈ rs, r.fields = []) → ∃ c, cs = [c] ∧ c.fields = []
  nothing : rs = [] → cs = []

section Clusters
variable (h : clusters j rs = .ok cs)
include h

theorem isConnected_of_mem_clusters (hc : c ∈ cs) : IsConnected rs c :=
  ((grows_isConnected j rs).clusters h fun _ => isConnected_of_mem).1 c hc

theorem exists_cluster_of_mem (hr : r ∈ rs) : ∃ c ∈ cs, ∀ f ∈ r.names, f ∈ c.names :=
  ((grows_isConnected j rs).clusters h fun _ => isConnected_of_mem).2 r hr

theorem eq_of_mem_names_of_mem_clusters (ha : a ∈ cs) (hb : b ∈ cs) (hfa : f ∈ a.names)
    (hfb : f ∈ b.names) : a = b := by
  by_contra ne
  have : Std.Symm fun a b : Record => a.overlaps b = false :=
    ⟨fun a b apart => (overlaps_comm b a).trans apart⟩
  exact not_mem_names_of_apart ((pairwise_clusters h).forall ha hb ne) hfa hfb

/-- A cluster that shares a name with a record has all names of the record. -/
theorem names_subset_of_shared (hr : r ∈ rs) (hc : c ∈ cs) (hfr : f ∈ r.names)
    (hfc : f ∈ c.names) : ∀ g ∈ r.names, g ∈ c.names := by
  obtain ⟨d, hd, subset⟩ := exists_cluster_of_mem h hr
  obtain rfl := eq_of_mem_names_of_mem_clusters h hc hd hfc (subset f hfr)
  exact subset

theorem names_subset_of_reachable {r q : filled rs} (hc : c ∈ cs)
    (subset : ∀ g ∈ r.1.names, g ∈ c.names) (path : (overlapGraph (filled rs)).Reachable r q) :
    ∀ g ∈ q.1.names, g ∈ c.names := by
  rw [SimpleGraph.reachable_iff_reflTransGen] at path
  induction path with
  | refl => exact subset
  | @tail m q _ step ih =>
    obtain ⟨_, f, hfm, hfq⟩ := step
    exact names_subset_of_shared h q.2.1 hc hfq (ih f hfm)

/-- The names of a cluster are those of the component of any record that it shares a name with. -/
theorem names_eq_componentNames {r : filled rs} (hc : c ∈ cs) (hfr : f ∈ r.1.names)
    (hfc : f ∈ c.names) : {g | g ∈ c.names} =
      componentNames (filled rs) ((overlapGraph (filled rs)).connectedComponentMk r) := by
  have connected := isConnected_of_mem_clusters h hc
  ext g
  constructor
  · intro hgc
    obtain ⟨q, hq, hgq⟩ := connected.source g hgc
    let vertex : filled rs := ⟨q, hq, fields_ne_nil_of_mem_names hgq⟩
    have path := connected.linked vertex r g hgc hgq f hfc hfr
    exact ⟨vertex, SimpleGraph.ConnectedComponent.eq.2 path, hgq⟩
  · rintro ⟨q, component, hgq⟩
    have path := SimpleGraph.ConnectedComponent.eq.1 component
    have subset := names_subset_of_shared h r.2.1 hc hfr hfc
    exact names_subset_of_reachable h hc subset path.symm g hgq

theorem eq_singleton_of_mem_clusters (hc : c ∈ cs) (empty : c.fields = []) : cs = [c] := by
  obtain ⟨before, after, rfl⟩ := List.append_of_mem hc
  obtain ⟨-, later, early⟩ := List.pairwise_append.1 (pairwise_clusters h)
  have meets (d : Record) : c.overlaps d = true := overlaps_iff.2 (.inl empty)
  have no_later : after = [] := by
    refine List.eq_nil_iff_forall_not_mem.2 fun d hd => ?_
    have apart := (List.pairwise_cons.1 later).1 d hd
    rw [meets d] at apart
    cases apart
  have no_early : before = [] := by
    refine List.eq_nil_iff_forall_not_mem.2 fun d hd => ?_
    have apart := early d hd c List.mem_cons_self
    rw [overlaps_comm, meets d] at apart
    cases apart
  rw [no_later, no_early]
  rfl

/-- If some record has fields, so has every cluster. -/
theorem exists_shared_of_mem_clusters (some : ∃ r ∈ rs, r.fields ≠ []) (hc : c ∈ cs) :
    ∃ f ∈ c.names, ∃ r : filled rs, f ∈ r.1.names := by
  have full : c.fields ≠ [] := by
    intro empty
    obtain ⟨r, hr, full⟩ := some
    obtain ⟨f, hf⟩ := exists_mem_names full
    obtain ⟨d, hd, subset⟩ := exists_cluster_of_mem h hr
    rw [eq_singleton_of_mem_clusters h hc empty, List.mem_singleton] at hd
    exact fields_ne_nil_of_mem_names (subset f hf) (hd ▸ empty)
  obtain ⟨f, hf⟩ := exists_mem_names full
  obtain ⟨r, hr, hfr⟩ := (isConnected_of_mem_clusters h hc).source f hf
  exact ⟨f, hf, ⟨r, hr, fields_ne_nil_of_mem_names hfr⟩, hfr⟩

theorem areComponents : AreComponents rs cs where
  apart := (pairwise_clusters h).imp fun apart f => not_mem_names_of_apart apart
  alone c := eq_singleton_of_mem_clusters h
  partition some := by
    ext N
    constructor
    · rintro ⟨c, hc, rfl⟩
      obtain ⟨f, hfc, r, hfr⟩ := exists_shared_of_mem_clusters h some hc
      exact ⟨_, (names_eq_componentNames h hc hfr hfc).symm⟩
    · rintro ⟨C, rfl⟩
      obtain ⟨r, rfl⟩ := C.exists_rep
      obtain ⟨f, hfr⟩ := exists_mem_names r.2.2
      obtain ⟨c, hc, subset⟩ := exists_cluster_of_mem h r.2.1
      exact ⟨c, hc, names_eq_componentNames h hc hfr (subset f hfr)⟩
  empty nonempty none := by
    obtain ⟨r, hr⟩ := List.exists_mem_of_ne_nil rs nonempty
    obtain ⟨c, hc, -⟩ := exists_cluster_of_mem h hr
    have empty : c.fields = [] := by
      by_contra full
      obtain ⟨f, hf⟩ := exists_mem_names full
      obtain ⟨q, hq, hfq⟩ := (isConnected_of_mem_clusters h hc).source f hf
      exact fields_ne_nil_of_mem_names hfq (none q hq)
    exact ⟨c, eq_singleton_of_mem_clusters h hc empty, empty⟩
  nothing none := by
    subst none
    cases h
    rfl

end Clusters

namespace AreComponents

theorem nodup_names (hcs : AreComponents rs cs) : (cs.map names).Nodup := by
  have ne {a b : Record} (ha : a ∈ cs) (hb : b ∈ cs) (two : cs ≠ [a])
      (apart : ∀ f ∈ a.names, f ∉ b.names) : a.names ≠ b.names := by
    intro same
    obtain ⟨f, hf⟩ := exists_mem_names (r := a) fun empty => two (hcs.alone a ha empty)
    exact apart f hf (same ▸ hf)
  match cs with
  | [] => exact .nil
  | [c] => exact List.nodup_singleton _
  | c :: d :: rest =>
    refine List.pairwise_map.2 (hcs.apart.imp_of_mem fun {a b} ha hb apart => ne ha hb ?_ apart)
    simp

theorem mem_names_of_perm (hcs : AreComponents rs cs) (hds : AreComponents qs ds)
    (some : ∃ r ∈ rs, r.fields ≠ []) (perm : rs.Perm qs) {names : List Text}
    (hmem : names ∈ cs.map Record.names) : names ∈ ds.map Record.names := by
  have same : filled rs = filled qs := by
    ext r
    exact and_congr_left fun _ => perm.mem_iff
  have some' : ∃ r ∈ qs, r.fields ≠ [] := by
    obtain ⟨r, hr, full⟩ := some
    exact ⟨r, perm.mem_iff.1 hr, full⟩
  have sets : {N : Set Text | ∃ c ∈ cs, {f | f ∈ c.names} = N} =
      {N | ∃ d ∈ ds, {f | f ∈ d.names} = N} := by
    rw [hcs.partition some, hds.partition some', same]
  obtain ⟨c, hc, rfl⟩ := List.mem_map.1 hmem
  obtain ⟨d, hd, eq⟩ := (Set.ext_iff.1 sets {f | f ∈ c.names}).1 ⟨c, hc, rfl⟩
  exact List.mem_map.2 ⟨d, hd, names_eq_of_mem_iff fun f => Set.ext_iff.1 eq f⟩

/-- The partition of the names does not depend on the order of the records. -/
theorem names_perm (hcs : AreComponents rs cs) (hds : AreComponents qs ds)
    (perm : rs.Perm qs) : (cs.map names).Perm (ds.map names) := by
  by_cases some : ∃ r ∈ rs, r.fields ≠ []
  · have some' : ∃ r ∈ qs, r.fields ≠ [] := by
      obtain ⟨r, hr, full⟩ := some
      exact ⟨r, perm.mem_iff.1 hr, full⟩
    refine (List.perm_ext_iff_of_nodup hcs.nodup_names hds.nodup_names).2 fun names => ?_
    exact ⟨hcs.mem_names_of_perm hds some perm, hds.mem_names_of_perm hcs some' perm.symm⟩
  · have none : ∀ r ∈ rs, r.fields = [] := by
      intro r hr
      by_contra full
      exact some ⟨r, hr, full⟩
    by_cases empty : rs = []
    · have empty' : qs = [] := (empty ▸ perm).nil_eq.symm
      rw [hcs.nothing empty, hds.nothing empty']
    · have nonempty : qs ≠ [] := fun h => empty (h ▸ perm).eq_nil
      obtain ⟨c, rfl, emptyc⟩ := hcs.empty empty none
      obtain ⟨d, rfl, emptyd⟩ := hds.empty nonempty fun r hr => none r (perm.mem_iff.2 hr)
      simp [names_eq_nil_iff.2 emptyc, names_eq_nil_iff.2 emptyd]

end AreComponents

/--
Clustering computes connected components, in either mode, and so divides the names in the
same way in whatever order the records come.
-/
theorem clusters_areComponents (mode : Mode) (h : clusters (join mode) rs = .ok cs) :
    AreComponents rs cs ∧ ∀ qs ds, rs.Perm qs → clusters (join mode) qs = .ok ds →
      (cs.map names).Perm (ds.map names) := by
  have components := areComponents h
  exact ⟨components, fun qs ds perm h' => components.names_perm (areComponents h') perm⟩

/-- The last record bridges two clusters that are not neighbours; the empty one bridges none. -/
theorem clusters_areComponents_of_bridge :
    AreComponents
      [⟨"r", [("a", .primitive .int)]⟩, ⟨"r", [("d", .primitive .string)]⟩, ⟨"r", []⟩,
        ⟨"r", [("b", .primitive .null), ("c", .primitive .int)]⟩,
        ⟨"r", [("a", .primitive .double), ("b", .primitive .int)]⟩]
      [⟨"r", [("d", .primitive .string)]⟩,
        ⟨"r", [("a", .primitive .double), ("b", .primitive .int), ("c", .primitive .int)]⟩] ∧
    ([["d"], ["a", "b", "c"]] : List (List Text)).Perm [["a", "b", "c"], ["d"]] := by
  let a : Record := ⟨"r", [("a", .primitive .int)]⟩
  let d : Record := ⟨"r", [("d", .primitive .string)]⟩
  let bc : Record := ⟨"r", [("b", .primitive .null), ("c", .primitive .int)]⟩
  let ab : Record := ⟨"r", [("a", .primitive .double), ("b", .primitive .int)]⟩
  let abc : Record :=
    ⟨"r", [("a", .primitive .double), ("b", .primitive .int), ("c", .primitive .int)]⟩
  have found : clusters (join .strict) [a, d, ⟨"r", []⟩, bc, ab] = .ok [d, abc] := by decide
  have found' : clusters (join .strict) [⟨"r", []⟩, ab, bc, a, d] = .ok [abc, d] := by decide
  obtain ⟨components, same⟩ := clusters_areComponents .strict found
  have ofd : d.names = ["d"] := by decide
  have ofabc : abc.names = ["a", "b", "c"] := by decide
  have perm := same [⟨"r", []⟩, ab, bc, a, d] [abc, d] (by decide) found'
  simp only [List.map_cons, List.map_nil, ofd, ofabc] at perm
  exact ⟨components, perm⟩

end SchemaInference.Record
