import SchemaInference.Proofs.Coalescing
import SchemaInference.Proofs.SameShape

/-!
# Groups of one shape

Groups with equal schemas are brought together where their schemas differ in the width of
numbers only.  What comes out are the classes of matches of one shape, each with the widest
schema of its members.
-/

namespace SchemaInference

open Schema

theorem Schema.unionFree_of_withoutWidth_eq {s t : Schema} (free : s.UnionFree)
    (same : t.withoutWidth = s.withoutWidth) : t.UnionFree := by
  induction s using induction_parts generalizing t with
  | primitive k =>
    cases sameForm same with
    | primitives => exact unionFree_primitive _
  | array n s ih =>
    cases sameForm same with
    | arrays _ items => exact unionFree_array.2 (ih free.items items)
  | record n fs ih =>
    cases sameForm same with
    | records _ fields =>
      rw [fieldsWithoutWidth_eq_map, fieldsWithoutWidth_eq_map] at fields
      refine everywhere_record.2 ⟨rfl, fun f t hmem => ?_⟩
      have image := List.mem_map_of_mem (f := fun e => (e.1, e.2.withoutWidth)) hmem
      rw [fields] at image
      obtain ⟨⟨g, s⟩, hs, heq⟩ := List.mem_map.1 image
      obtain ⟨rfl, same⟩ := Prod.mk.inj heq
      exact ih g s hs ((everywhere_record.1 free).2 g s hs) same.symm
  | union bs => exact absurd free (not_unionFree_union bs)

/-- A schema whose records come from `Record.ofFields`, and that holds no unions. -/
structure Schema.Plain (t : Schema) : Prop where
  canonical : t.Canonical
  free : t.UnionFree

theorem Schema.Plain.sameShape {s t : Schema} (hs : s.Plain) (ht : t.Plain)
    (same : s.withoutWidth = t.withoutWidth) : SameShape [s, t] s where
  canonical := forall_mem_pair.2 ⟨hs.canonical, ht.canonical⟩
  free := forall_mem_pair.2 ⟨hs.free, ht.free⟩
  same := forall_mem_pair.2 ⟨rfl, same.symm⟩

/-- The groups are the classes of one shape of the matches that are in the groups `done`. -/
structure Coalesced (found : List Match) (done groups : List Group) : Prop where
  grouped : Grouped withoutWidth (fun m => m ∈ found ∧ ∃ d ∈ done, d.schema = m.schema) groups
  least : ∀ g ∈ groups, IsLeastAbove (classOf done g.schema) g.schema

/-- Schemas without unions that differ in width only have a least schema above them. -/
theorem coalesces_plain (mode : Mode) :
    Coalesces mode Plain fun ts c => IsLeastAbove ts c ∧ c.UnionFree where
  canonical h := h.1.canonical
  single ht := ⟨(IsJoinOf.single ht.canonical).isLeastAbove, ht.free⟩
  join {ts s t} hs ht same := by
    have pair := Plain.sameShape ⟨hs.1.canonical, hs.2⟩ ht same
    obtain ⟨c, joined, least⟩ := exists_join_of_sameShape mode pair
    have shape : c.withoutWidth = s.withoutWidth :=
      (pair.takesKinds List.mem_cons_self least).same
    refine ⟨c, joined, shape, ?_, unionFree_of_withoutWidth_eq hs.2 shape⟩
    exact hs.1.append (IsJoinOf.single ht.canonical).isLeastAbove least

/-- The groups of matches are the classes of matches of one shape. -/
theorem coalesced_groupMatches {found : List Match} (mode : Mode)
    (distinct : (found.map Match.index).Nodup) (plain : ∀ m ∈ found, m.schema.Plain) :
    Coalesced (inOrder found) (exactGroups (inOrder found)) (groupMatches mode found) := by
  have h := (coalesces_plain mode).groupMatches distinct plain
  exact ⟨h.grouped, fun g hg => (h.standsFor g hg).1⟩

/-- A group is the class of the matches of its shape, with the widest of their schemas. -/
structure Group.IsClassOf (found : List Match) (g : Group) : Prop where
  plain : g.schema.Plain
  inhabited : g.messages ≠ []
  ascending : g.messages.Pairwise (· < ·)
  members : ∀ i, i ∈ g.messages ↔
    ∃ m ∈ found, m.index = i ∧ m.schema.sameUpToWidth g.schema = true
  widest : IsWidest ((found.filter fun m => m.schema.sameUpToWidth g.schema).map Match.schema)
    g.schema

/-- The groups are all classes of matches of one shape, by first message. -/
structure AreClassesOf (found : List Match) (groups : List Group) : Prop where
  apart : groups.Pairwise fun a b => a.schema.sameUpToWidth b.schema = false
  ordered : groups.Pairwise fun a b => a.first < b.first
  complete : ∀ m ∈ found, ∃ g ∈ groups, m.schema.sameUpToWidth g.schema = true
  together : ∀ g ∈ groups, ∀ m ∈ found, m.index ∈ g.messages → ∀ n ∈ found,
    n.index ∈ g.messages ↔ m.schema.sameUpToWidth n.schema = true
  isClassOf : ∀ g ∈ groups, g.IsClassOf found

section Classes
variable {found : List Match} {groups : List Group}

section Computed
variable (mode : Mode) (distinct : (found.map Match.index).Nodup)
  (plain : ∀ m ∈ found, m.schema.Plain) {g : Group}
include distinct plain

theorem grouped_groupMatches : Grouped withoutWidth (· ∈ found) (groupMatches mode found) :=
  ((coalesces_plain mode).groupMatches distinct plain).grouped_found distinct

variable {mode} (hg : g ∈ groupMatches mode found)
include hg

theorem canonical_of_mem_groupMatches : g.schema.Canonical :=
  ((coalesced_groupMatches mode distinct plain).least g hg).canonical

theorem sameUpToWidth_group_iff {m : Match} (hm : m ∈ found) :
    m.schema.sameUpToWidth g.schema = true ↔ m.schema.withoutWidth = g.schema.withoutWidth :=
  sameUpToWidth_iff (plain m hm).canonical (canonical_of_mem_groupMatches distinct plain hg)

theorem mem_messages_group_iff {m : Match} (hm : m ∈ found) :
    m.index ∈ g.messages ↔ m.schema.withoutWidth = g.schema.withoutWidth :=
  ((coalesces_plain mode).groupMatches distinct plain).mem_messages_iff distinct hg hm

/-- The least schema above the class is the widest of its schemas. -/
theorem isWidest_group : IsWidest
    ((found.filter fun m => m.schema.sameUpToWidth g.schema).map Match.schema) g.schema := by
  have grouped := grouped_groupMatches mode distinct plain
  have least := (coalesced_groupMatches mode distinct plain).least g hg
  obtain ⟨m, hm, heq, _⟩ := (grouped.members g hg _).1 (grouped.first_mem hg)
  have mem (t : Schema) :
      t ∈ (found.filter fun m => m.schema.sameUpToWidth g.schema).map Match.schema ↔
        ∃ m ∈ found, m.schema.withoutWidth = g.schema.withoutWidth ∧ m.schema = t := by
    simp only [List.mem_map, List.mem_filter, and_assoc]
    refine exists_congr fun m => and_congr_right fun hm => and_congr_left' ?_
    exact sameUpToWidth_group_iff distinct plain hg hm
  have shape : SameShape ((found.filter fun m => m.schema.sameUpToWidth g.schema).map
      Match.schema) m.schema := by
    constructor <;> intro t ht <;> obtain ⟨n, hn, heq', rfl⟩ := (mem t).1 ht
    · exact (plain n hn).canonical
    · exact (plain n hn).free
    · rw [heq', heq]
  refine shape.isWidest ((mem _).2 ⟨m, hm, heq, rfl⟩) (least.congr fun t => ?_)
  rw [mem_class_iff distinct, mem]

theorem isClassOf_groupMatches : g.IsClassOf found := by
  have grouped := grouped_groupMatches mode distinct plain
  obtain ⟨m, hm, heq, _⟩ := (grouped.members g hg _).1 (grouped.first_mem hg)
  have free := unionFree_of_withoutWidth_eq (plain m hm).free heq.symm
  refine ⟨⟨canonical_of_mem_groupMatches distinct plain hg, free⟩, grouped.inhabited g hg,
    grouped.ascending g hg, fun i => ?_, isWidest_group distinct plain hg⟩
  rw [grouped.members g hg]
  refine exists_congr fun m => and_congr_right fun hm => ?_
  rw [sameUpToWidth_group_iff distinct plain hg hm, and_comm]

end Computed

theorem areClassesOf_groupMatches (mode : Mode) (distinct : (found.map Match.index).Nodup)
    (plain : ∀ m ∈ found, m.schema.Plain) :
    AreClassesOf found (groupMatches mode found) := by
  have grouped := grouped_groupMatches mode distinct plain
  have canonical (g : Group) (hg : g ∈ groupMatches mode found) : g.schema.Canonical :=
    canonical_of_mem_groupMatches distinct plain hg
  refine ⟨?_, grouped.ordered, ?_, ?_, fun g hg => isClassOf_groupMatches distinct plain hg⟩
  · refine grouped.apart.imp_of_mem fun {a b} ha hb other => ?_
    rw [← Bool.not_eq_true, sameUpToWidth_iff (canonical a ha) (canonical b hb)]
    exact other
  · intro m hm
    obtain ⟨g, hg, heq⟩ := grouped.complete m hm
    exact ⟨g, hg, (sameUpToWidth_group_iff distinct plain hg hm).2 heq⟩
  · intro g hg m hm mem n hn
    rw [mem_messages_group_iff distinct plain hg hm] at mem
    rw [mem_messages_group_iff distinct plain hg hn,
      sameUpToWidth_iff (plain m hm).canonical (plain n hn).canonical, mem, eq_comm]

/-- Classes of one shape among renumbered matches differ in the numbers only. -/
theorem Group.IsClassOf.renumber {σ : Int → Int} {g g' : Group}
    (distinct : (found.map fun m => σ m.index).Nodup) (plain : ∀ m ∈ found, m.schema.Plain)
    (h : g.IsClassOf found) (h' : g'.IsClassOf (found.map (Match.renumber σ)))
    (same : g.schema.withoutWidth = g'.schema.withoutWidth) :
    g'.schema = g.schema ∧ g'.messages = SchemaInference.ascending (g.messages.map σ) := by
  have shape {m : Match} (hm : m ∈ found) : m.schema.sameUpToWidth g'.schema =
      m.schema.sameUpToWidth g.schema := by
    rw [Bool.eq_iff_iff, sameUpToWidth_iff (plain m hm).canonical h'.plain.canonical,
      sameUpToWidth_iff (plain m hm).canonical h.plain.canonical, same]
  constructor
  · have whole : ((found.map (Match.renumber σ)).filter fun m =>
        m.schema.sameUpToWidth g'.schema).map Match.schema =
          (found.filter fun m => m.schema.sameUpToWidth g.schema).map Match.schema := by
      rw [List.filter_map, List.map_map]
      exact congrArg _ (List.filter_congr fun m hm => shape (m := m) hm)
    obtain ⟨m, hm, _, used⟩ := (h.members _).1 (head_mem h.inhabited)
    have widest := h'.widest
    rw [whole] at widest
    have full : (found.filter fun m => m.schema.sameUpToWidth g.schema).map Match.schema ≠ [] :=
      List.ne_nil_of_mem (List.mem_map_of_mem (List.mem_filter.2 ⟨hm, used⟩))
    refine IsWidest.unique (fun t ht => ?_) full h'.plain.canonical h.plain.canonical widest
      h.widest
    obtain ⟨n, hn, rfl⟩ := List.mem_map.1 ht
    exact (plain n (List.mem_filter.1 hn).1).canonical
  · apply eq_of_ascending h'.ascending
    · refine ascending_pairwise (List.Nodup.map_on (fun i hi j hj heq => ?_) ?_)
      · obtain ⟨m, hm, rfl, _⟩ := (h.members i).1 hi
        obtain ⟨n, hn, rfl, _⟩ := (h.members j).1 hj
        rw [List.inj_on_of_nodup_map distinct hm hn heq]
      · exact h.ascending.imp fun h => by omega
    · intro i
      rw [h'.members, mem_ascending, List.mem_map]
      constructor
      · rintro ⟨_, hm', rfl, used⟩
        obtain ⟨m, hm, rfl⟩ := List.mem_map.1 hm'
        exact ⟨m.index, (h.members _).2 ⟨m, hm, rfl, (shape hm).symm.trans used⟩, rfl⟩
      · rintro ⟨j, hj, rfl⟩
        obtain ⟨m, hm, rfl, used⟩ := (h.members j).1 hj
        exact ⟨m.renumber σ, List.mem_map_of_mem hm, rfl, (shape (m := m) hm).trans used⟩

theorem AreClassesOf.nodup_schemas (h : AreClassesOf found groups) :
    (groups.map Group.schema).Nodup := by
  refine List.pairwise_map.2 (h.apart.imp_of_mem fun {a b} ha _ apart same => ?_)
  have canonical := (h.isClassOf a ha).plain.canonical
  rw [← same, ← Bool.not_eq_true, sameUpToWidth_iff canonical canonical] at apart
  exact apart rfl

theorem AreClassesOf.nodup_map {β : Type} (h : AreClassesOf found groups) (f : Group → β) :
    (groups.map fun g => (g.schema, f g)).Nodup := by
  refine List.pairwise_map.2 ((List.pairwise_map.1 h.nodup_schemas).imp fun ne heq => ?_)
  exact ne (congrArg Prod.fst heq)

/-- Renumbering messages renumbers the members of the groups, whose schemas stay. -/
theorem AreClassesOf.renumber {σ : Int → Int} {groups' : List Group}
    (distinct : (found.map fun m => σ m.index).Nodup) (plain : ∀ m ∈ found, m.schema.Plain)
    (h : AreClassesOf found groups) (h' : AreClassesOf (found.map (Match.renumber σ)) groups') :
    (groups.map fun g => (g.schema, ascending (g.messages.map σ))).Perm
      (groups'.map fun g => (g.schema, g.messages)) := by
  -- groups of one match are of one shape
  have equal {m : Match} {g g' : Group} (hm : m ∈ found) (hg : g ∈ groups) (hg' : g' ∈ groups')
      (used : m.schema.sameUpToWidth g.schema = true)
      (used' : m.schema.sameUpToWidth g'.schema = true) :
      (g'.schema, g'.messages) = (g.schema, ascending (g.messages.map σ)) := by
    have hg := h.isClassOf g hg
    have hg' := h'.isClassOf g' hg'
    rw [sameUpToWidth_iff (plain m hm).canonical hg.plain.canonical] at used
    rw [sameUpToWidth_iff (plain m hm).canonical hg'.plain.canonical] at used'
    obtain ⟨schema, messages⟩ := hg.renumber distinct plain hg' (used.symm.trans used')
    rw [schema, messages]
  refine (List.perm_ext_iff_of_nodup (h.nodup_map _) (h'.nodup_map _)).2 fun x => ?_
  constructor
  · intro hx
    obtain ⟨g, hg, rfl⟩ := List.mem_map.1 hx
    obtain ⟨m, hm, _, used⟩ := ((h.isClassOf g hg).members _).1
      (head_mem (h.isClassOf g hg).inhabited)
    obtain ⟨g', hg', used'⟩ := h'.complete (m.renumber σ) (List.mem_map_of_mem hm)
    exact List.mem_map.2 ⟨g', hg', equal hm hg hg' used used'⟩
  · intro hx
    obtain ⟨g', hg', rfl⟩ := List.mem_map.1 hx
    obtain ⟨m', hm', _, used'⟩ := ((h'.isClassOf g' hg').members _).1
      (head_mem (h'.isClassOf g' hg').inhabited)
    obtain ⟨m, hm, rfl⟩ := List.mem_map.1 hm'
    obtain ⟨g, hg, used⟩ := h.complete m hm
    exact List.mem_map.2 ⟨g, hg, (equal hm hg hg' used used').symm⟩

end Classes

/--
The groups of results that hold no unions are the classes of one shape among the matches.
Numbering the results otherwise gives the same schemas for the same documents.
-/
theorem groupOutcomes_areClasses (mode : Mode) {results : List MessageOutcome}
    (distinct : (results.map MessageOutcome.index).Nodup)
    (plain : ∀ m ∈ results.filterMap MessageOutcome.match?, m.schema.Plain) :
    AreClassesOf (results.filterMap MessageOutcome.match?) (groupOutcomes mode results) ∧
    ∀ σ : Int → Int, (results.map fun r => σ r.index).Nodup →
      ((groupOutcomes mode results).map fun g => (g.schema, ascending (g.messages.map σ))).Perm
        ((groupOutcomes mode (results.map fun r => ⟨σ r.index, r.outcome⟩)).map fun g =>
          (g.schema, g.messages)) := by
  have found := matches_sublist.nodup distinct
  have classes := areClassesOf_groupMatches mode found plain
  refine ⟨classes, fun σ distinct' => ?_⟩
  have renumbered := (@matches_sublist results).map σ
  rw [List.map_map, List.map_map] at renumbered
  have found' := renumbered.nodup distinct'
  unfold groupOutcomes
  rw [matches_renumber]
  refine classes.renumber found' plain (areClassesOf_groupMatches mode ?_ fun m hm => ?_)
  · rwa [List.map_map]
  · obtain ⟨n, hn, rfl⟩ := List.mem_map.1 hm
    exact plain n hn

/-- Numbers of two widths and a string, and the same results numbered backwards. -/
theorem groupOutcomes_areClasses_of_widths :
    let results : List MessageOutcome := [⟨2, .ok (.record "r" [("a", .primitive .int)])⟩,
      ⟨0, .ok (.record "r" [("a", .primitive .long)])⟩, ⟨1, .ok (.primitive .string)⟩]
    groupOutcomes .strict results =
        [⟨.record "r" [("a", .primitive .long)], [0, 2]⟩, ⟨.primitive .string, [1]⟩] ∧
      AreClassesOf (results.filterMap MessageOutcome.match?) (groupOutcomes .strict results) ∧
      ((groupOutcomes .strict results).map fun g =>
        (g.schema, ascending (g.messages.map fun i => 2 - i))).Perm
        ((groupOutcomes .strict (results.map fun r => ⟨2 - r.index, r.outcome⟩)).map fun g =>
          (g.schema, g.messages)) := by
  intro results
  have row (k : Kind) : Schema.Plain (.record "r" [("a", .primitive k)]) := by
    refine ⟨canonical_record.2 ⟨List.pairwise_singleton _ _, fun f t found => ?_⟩, ?_⟩
    · cases (List.mem_singleton.1 (mem_of_lookup found))
      exact canonical_primitive k
    · exact everywhere_record.2 ⟨rfl, by simp [everywhere_primitive, isUnion]⟩
  have plain : ∀ m ∈ results.filterMap MessageOutcome.match?, m.schema.Plain := by
    intro m hm
    have hm : m ∈ [Match.mk 2 (.record "r" [("a", .primitive .int)]),
        ⟨0, .record "r" [("a", .primitive .long)]⟩, ⟨1, .primitive .string⟩] := hm
    simp only [List.mem_cons, List.not_mem_nil, or_false] at hm
    rcases hm with rfl | rfl | rfl
    · exact row .int
    · exact row .long
    · exact ⟨canonical_primitive _, unionFree_primitive _⟩
  have distinct : (results.map MessageOutcome.index).Nodup := by decide
  obtain ⟨classes, renumbered⟩ := groupOutcomes_areClasses .strict distinct plain
  let found : List Match := [⟨0, .record "r" [("a", .primitive .long)]⟩, ⟨1, .primitive .string⟩,
    ⟨2, .record "r" [("a", .primitive .int)]⟩]
  let groups (is : List Int) : List Group :=
    [⟨.record "r" [("a", .primitive .long)], is⟩, ⟨.primitive .string, [1]⟩]
  have swapped : (results.filterMap MessageOutcome.match?).Perm found :=
    @List.perm_append_comm _ [_] found.dropLast
  have exact : exactGroups found = [⟨.record "r" [("a", .primitive .long)], [0]⟩,
      ⟨.primitive .string, [1]⟩, ⟨.record "r" [("a", .primitive .int)], [2]⟩] := by
    decide +kernel
  have grouped : groupOutcomes .strict results = groups [0, 2] := by
    rw [groupOutcomes, groupMatches_eq .strict swapped (by decide) exact]
    exact congrArg groups (ascending_eq (.refl _) (by decide))
  exact ⟨grouped, classes, renumbered (fun i => 2 - i) (by decide)⟩

end SchemaInference
