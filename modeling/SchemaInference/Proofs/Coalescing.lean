import SchemaInference.Proofs.Grouping
import SchemaInference.Proofs.Widths

/-!
# Coalescing groups

Groups of equal schemas are added one after the other.  A group whose shape is new is put at
the end, and any other is taken up by the group of its shape, whose schema is joined with its
own.  Where these joins succeed and keep the shape, the groups stay the classes of one shape,
and the schema of each stands for the schemas that came to it.
-/

namespace SchemaInference

open Schema

/-- The schemas of groups that are of the shape of a schema. -/
def classOf (done : List Group) (s : Schema) : List Schema :=
  (done.map Group.schema).filter fun t => t.withoutWidth = s.withoutWidth

theorem mem_classOf {done : List Group} {s t : Schema} : t ∈ classOf done s ↔
    (∃ d ∈ done, d.schema = t) ∧ t.withoutWidth = s.withoutWidth := by
  simp [classOf]

/--
Whether a schema that stands for some schemas can be joined with one of its shape that is
allowed, and the join stands for all of them.
-/
structure Coalesces (mode : Mode) (allowed : Schema → Prop)
    (StandsFor : List Schema → Schema → Prop) : Prop where
  canonical : ∀ {ts c}, StandsFor ts c → c.Canonical
  single : ∀ {t}, allowed t → StandsFor [t] t
  join : ∀ {ts s t}, StandsFor ts s → allowed t → s.withoutWidth = t.withoutWidth →
    ∃ c, join mode s t = .ok c ∧ c.withoutWidth = s.withoutWidth ∧ StandsFor (ts ++ [t]) c

/-- The groups are the classes of one shape of the matches that are in the groups `done`. -/
structure CoalescedBy (StandsFor : List Schema → Schema → Prop) (found : List Match)
    (done groups : List Group) : Prop where
  grouped : Grouped withoutWidth (fun m => m ∈ found ∧ ∃ d ∈ done, d.schema = m.schema) groups
  standsFor : ∀ g ∈ groups, StandsFor (classOf done g.schema) g.schema

variable {mode : Mode} {allowed : Schema → Prop} {StandsFor : List Schema → Schema → Prop}
  {found : List Match} {done rest groups : List Group} {e : Group}

section Pair
variable (coalesces : Coalesces mode allowed StandsFor) {ts : List Schema} {g : Group}
  (hg : StandsFor ts g.schema) (he : allowed e.schema)
include coalesces hg he

theorem Coalesces.sameUpToWidth_iff : g.schema.sameUpToWidth e.schema = true ↔
    g.schema.withoutWidth = e.schema.withoutWidth :=
  Schema.sameUpToWidth_iff (coalesces.canonical hg) (coalesces.canonical (coalesces.single he))

theorem Coalesces.ne_of_coalesce? (h : coalesce? mode g e = none) :
    g.schema.withoutWidth ≠ e.schema.withoutWidth := by
  intro same
  obtain ⟨c, joined, _⟩ := coalesces.join hg he same
  rw [coalesce?, if_pos ((coalesces.sameUpToWidth_iff hg he).2 same), joined] at h
  cases h

theorem Coalesces.standsFor_of_coalesce? {c : Schema} (h : coalesce? mode g e = some c) :
    g.schema.withoutWidth = e.schema.withoutWidth ∧ c.withoutWidth = g.schema.withoutWidth ∧
      StandsFor (ts ++ [e.schema]) c := by
  unfold coalesce? at h
  split at h
  · next same =>
    have same := (coalesces.sameUpToWidth_iff hg he).1 same
    obtain ⟨d, joined, shape, stands⟩ := coalesces.join hg he same
    rw [joined] at h
    cases h
    exact ⟨same, shape, stands⟩
  · cases h

end Pair

theorem seen_next (m : Match) :
    ((m ∈ found ∧ ∃ d ∈ done, d.schema = m.schema) ∨ (m ∈ found ∧ m.schema = e.schema)) ↔
      m ∈ found ∧ ∃ d ∈ done ++ [e], d.schema = m.schema := by
  simp only [List.mem_append, List.mem_singleton]
  grind

section Step
variable (texts : Grouped id (· ∈ found) (done ++ e :: rest))

include texts in
theorem mem_messages_next (i : Int) :
    i ∈ e.messages ↔ ∃ m, (m ∈ found ∧ m.schema = e.schema) ∧ m.index = i := by
  rw [texts.members e (by simp)]
  simp only [id_eq, and_assoc]

namespace CoalescedBy
variable (h : CoalescedBy StandsFor found done groups)

section Texts
include texts h

theorem first_lt {g : Group} (hg : g ∈ groups) : g.first < e.first := by
  obtain ⟨m, ⟨_, d, hd, heq⟩, same, _⟩ := (h.grouped.members g hg _).1 (h.grouped.first_mem hg)
  have hd' : d ∈ done ++ e :: rest := List.mem_append_left _ hd
  obtain ⟨n, hn, heq', at_⟩ := (texts.members d hd' _).1 (texts.first_mem hd')
  have mem : d.first ∈ g.messages := by
    refine (h.grouped.members g hg _).2 ⟨n, ⟨hn, d, hd, heq'.symm⟩, ?_, at_⟩
    have heq' : n.schema = d.schema := heq'
    rw [heq', heq, same]
  -- a group that is done belongs to `g`, and it begins before `e`
  have before : d.first < e.first :=
    (List.pairwise_append.1 texts.ordered).2.2 d hd e List.mem_cons_self
  exact Int.lt_of_le_of_lt (head_le_of_ascending (h.grouped.ascending g hg) mem) before

theorem exists_group_of_done {d : Group} (hd : d ∈ done) :
    ∃ g ∈ groups, d.schema.withoutWidth = g.schema.withoutWidth := by
  have hd' : d ∈ done ++ e :: rest := List.mem_append_left _ hd
  obtain ⟨n, hn, heq, _⟩ := (texts.members d hd' _).1 (texts.first_mem hd')
  have heq : n.schema = d.schema := heq
  obtain ⟨g, hg, same⟩ := h.grouped.complete n ⟨hn, d, hd, heq.symm⟩
  exact ⟨g, hg, heq ▸ same⟩

theorem disjoint (distinct : ∀ m ∈ found, ∀ n ∈ found, m.index = n.index → m = n) {g : Group}
    (hg : g ∈ groups) {i : Int} (hi : i ∈ g.messages) : i ∉ e.messages := by
  intro hi'
  obtain ⟨m, ⟨hm, d, hd, heq⟩, _, at_⟩ := (h.grouped.members g hg i).1 hi
  obtain ⟨n, ⟨hn, heq'⟩, at'⟩ := (mem_messages_next texts i).1 hi'
  obtain rfl := distinct m hm n hn (at_.trans at'.symm)
  exact (List.pairwise_append.1 texts.apart).2.2 d hd e List.mem_cons_self (heq.trans heq')

end Texts

include h in
theorem standsFor_of_other {g : Group} (hg : g ∈ groups)
    (other : e.schema.withoutWidth ≠ g.schema.withoutWidth) :
    StandsFor (classOf (done ++ [e]) g.schema) g.schema := by
  have : classOf (done ++ [e]) g.schema = classOf done g.schema := by
    simp [classOf, List.filter_append, other]
  rw [this]
  exact h.standsFor g hg

include texts h

/-- A group of a new shape is a class of its own. -/
theorem append (own : StandsFor [e.schema] e.schema)
    (unused : ∀ g ∈ groups, g.schema.withoutWidth ≠ e.schema.withoutWidth) :
    CoalescedBy StandsFor found (done ++ [e]) (groups ++ [e]) := by
  have he : e ∈ done ++ e :: rest := by simp
  constructor
  · refine Grouped.congr (h.grouped.append unused (texts.inhabited e he) (texts.ascending e he)
      (fun m hm => by rw [hm.2]) (mem_messages_next texts) fun g hg => ?_) seen_next
    exact h.first_lt texts hg
  · refine List.forall_mem_append.2
      ⟨fun g hg => h.standsFor_of_other hg (unused g hg).symm, ?_⟩
    intro a ha
    cases List.mem_singleton.1 ha
    have none : classOf done e.schema = [] := by
      refine List.filter_eq_nil_iff.2 fun t ht => ?_
      obtain ⟨d, hd, rfl⟩ := List.mem_map.1 ht
      obtain ⟨g, hg, same⟩ := h.exists_group_of_done texts hd
      simpa [same] using unused g hg
    have alone : classOf (done ++ [e]) e.schema = classOf done e.schema ++ [e.schema] := by
      simp [classOf, List.filter_append]
    rw [alone, none]
    exact own

/-- A group of the shape of a class is taken up by it. -/
theorem replace {front back : List Group} {g : Group} {c : Schema}
    (distinct : ∀ m ∈ found, ∀ n ∈ found, m.index = n.index → m = n)
    (split : groups = front ++ g :: back)
    (same : g.schema.withoutWidth = e.schema.withoutWidth)
    (shape : c.withoutWidth = g.schema.withoutWidth)
    (stands : StandsFor (classOf done g.schema ++ [e.schema]) c) :
    CoalescedBy StandsFor found (done ++ [e])
      (front ++ ⟨c, ascending (g.messages ++ e.messages)⟩ :: back) := by
  subst split
  have he : e ∈ done ++ e :: rest := by simp
  have hg : g ∈ front ++ g :: back := by simp
  constructor
  · refine Grouped.congr (h.grouped.replace shape ?_ (fun m hm => ?_) (fun i => ?_) fun m hm => ?_)
      seen_next
    · apply ascending_pairwise
      have nodup {is : List Int} (asc : is.Pairwise (· < ·)) : is.Nodup :=
        asc.imp fun h => by omega
      refine List.nodup_append.2
        ⟨nodup (h.grouped.ascending g hg), nodup (texts.ascending e he), ?_⟩
      rintro i hi j hj rfl
      exact h.disjoint texts distinct hg hi hj
    · rw [hm.2, same]
    · rw [mem_ascending, List.mem_append, mem_messages_next texts]
    · have mem := (mem_messages_next texts m.index).2 ⟨m, hm, rfl⟩
      exact Int.lt_of_lt_of_le (h.first_lt texts hg)
        (head_le_of_ascending (texts.ascending e he) mem)
  · intro a ha
    rcases h.grouped.eq_or_other ha with rfl | ⟨ha, other⟩
    · have whole : classOf (done ++ [e]) c = classOf done g.schema ++ [e.schema] := by
        simp [classOf, List.filter_append, shape, same]
      rw [whole]
      exact stands
    · exact h.standsFor_of_other ha (same ▸ other.symm)

/-- Adding the next group of equal schemas keeps the groups the classes of one shape. -/
theorem addGroup (coalesces : Coalesces mode allowed StandsFor) (he : allowed e.schema)
    (distinct : ∀ m ∈ found, ∀ n ∈ found, m.index = n.index → m = n) :
    CoalescedBy StandsFor found (done ++ [e]) (SchemaInference.addGroup mode e groups) := by
  rcases addGroup_cases mode e groups with ⟨added, none⟩ | ⟨front, g, back, c, split, some, added⟩
  · rw [added]
    refine h.append texts (coalesces.single he) fun g hg => ?_
    exact coalesces.ne_of_coalesce? (h.standsFor g hg) he (none g hg)
  · rw [added]
    have hg : g ∈ groups := by simp [split]
    obtain ⟨same, shape, stands⟩ := coalesces.standsFor_of_coalesce? (h.standsFor g hg) he some
    exact h.replace texts distinct split same shape stands

end CoalescedBy

end Step

theorem CoalescedBy.foldl (coalesces : Coalesces mode allowed StandsFor)
    (texts : Grouped id (· ∈ found) (done ++ rest)) (all : ∀ d ∈ done ++ rest, allowed d.schema)
    (distinct : ∀ m ∈ found, ∀ n ∈ found, m.index = n.index → m = n)
    (h : CoalescedBy StandsFor found done groups) :
    CoalescedBy StandsFor found (done ++ rest)
      (rest.foldl (fun groups g => SchemaInference.addGroup mode g groups) groups) := by
  -- `done` are the groups of equal schemas that have been added, `rest` those still to come
  induction rest generalizing done groups with
  | nil => simpa using h
  | cons e rest ih =>
    have next := h.addGroup texts coalesces (all e (by simp)) distinct
    have whole : done ++ e :: rest = done ++ [e] ++ rest := by simp
    rw [whole] at texts all ⊢
    exact ih texts all next

section Matches

theorem mem_exactSchemas (distinct : (found.map Match.index).Nodup) {t : Schema} :
    (∃ d ∈ exactGroups (inOrder found), d.schema = t) ↔ ∃ m ∈ found, m.schema = t := by
  have texts := grouped_exactGroups (inOrder_pairwise distinct)
  constructor
  · rintro ⟨d, hd, rfl⟩
    obtain ⟨m, hm, heq, _⟩ := (texts.members d hd _).1 (texts.first_mem hd)
    exact ⟨m, mem_inOrder.1 hm, heq⟩
  · rintro ⟨m, hm, rfl⟩
    obtain ⟨d, hd, heq⟩ := texts.complete m (mem_inOrder.2 hm)
    exact ⟨d, hd, heq.symm⟩

/-- The groups of matches are the classes of matches of one shape. -/
theorem Coalesces.groupMatches (coalesces : Coalesces mode allowed StandsFor)
    (distinct : (found.map Match.index).Nodup) (all : ∀ m ∈ found, allowed m.schema) :
    CoalescedBy StandsFor (inOrder found) (exactGroups (inOrder found))
      (SchemaInference.groupMatches mode found) := by
  have texts := grouped_exactGroups (inOrder_pairwise distinct)
  have allowed (d : Group) (hd : d ∈ exactGroups (inOrder found)) : allowed d.schema := by
    obtain ⟨m, hm, heq⟩ := (mem_exactSchemas distinct).1 ⟨d, hd, rfl⟩
    exact heq ▸ all m hm
  have start : CoalescedBy StandsFor (inOrder found) [] [] :=
    ⟨Grouped.nil.congr (by simp), by simp⟩
  refine start.foldl coalesces texts allowed fun m hm n hn at_ => ?_
  exact eq_of_index_eq distinct (mem_inOrder.1 hm) (mem_inOrder.1 hn) at_

namespace CoalescedBy
variable (h : CoalescedBy StandsFor (inOrder found) (exactGroups (inOrder found)) groups)
  (distinct : (found.map Match.index).Nodup)
include h distinct

theorem grouped_found : Grouped withoutWidth (· ∈ found) groups := by
  refine h.grouped.congr fun m => ?_
  rw [mem_inOrder, mem_exactSchemas distinct]
  exact ⟨fun h => h.1, fun h => ⟨h, m, h, rfl⟩⟩

theorem mem_messages_iff {g : Group} (hg : g ∈ groups) {m : Match} (hm : m ∈ found) :
    m.index ∈ g.messages ↔ m.schema.withoutWidth = g.schema.withoutWidth := by
  rw [(h.grouped_found distinct).members g hg]
  constructor
  · rintro ⟨n, hn, same, at_⟩
    rwa [← eq_of_index_eq distinct hn hm at_]
  · exact fun same => ⟨m, hm, same, rfl⟩

end CoalescedBy

theorem mem_class_iff (distinct : (found.map Match.index).Nodup) {s t : Schema} :
    t ∈ classOf (exactGroups (inOrder found)) s ↔
      ∃ m ∈ found, m.schema.withoutWidth = s.withoutWidth ∧ m.schema = t := by
  rw [mem_classOf, mem_exactSchemas distinct]
  constructor
  · rintro ⟨⟨m, hm, rfl⟩, same⟩
    exact ⟨m, hm, same, rfl⟩
  · rintro ⟨m, hm, same, rfl⟩
    exact ⟨⟨m, hm, rfl⟩, same⟩

end Matches

end SchemaInference
