import SchemaInference.Proofs.Subsumption

/-!
# Soundness of inference

A document fits its schema, as long as nothing is unpacked that tells values apart: no
empty object may stand where only records are that are unpacked, and where a union with
records for branches is joined again, all records must merge into one that stays a branch.
-/

namespace SchemaInference

open Schema

namespace Schema

def recordBranches : Schema → List Record
  | .union branches => branches.filterMap record?
  | _ => []

theorem recordBranches_of_flat {t : Schema} (flat : t.isUnion = false) : t.recordBranches = [] := by
  cases t with
  | union => cases flat
  | _ => rfl

/-- Whether a schema that is left of a union can stand for itself. -/
inductive StandsAlone : Schema → Prop where
  | primitive {k : Kind} (full : k ≠ .null) : StandsAlone (.primitive k)
  | array {items : Schema} : StandsAlone (.array none items)

theorem standsAlone_of_slot {b d : Schema} (h : b.StandsAlone) (same : d.slot = b.slot)
    (full : d ≠ null) : d.StandsAlone := by
  have notNamed (n : Text) : b.slot ≠ .of (.named n) := by
    cases h with
    | @primitive k full => cases k <;> nofun
    | array => nofun
  cases d with
  | primitive k => exact .primitive fun heq => full (heq ▸ rfl)
  | array n items =>
    cases n with
    | none => exact .array
    | some n => exact absurd same.symm (notNamed n)
  | record n fields => exact absurd same.symm (notNamed n)
  | union bs =>
    cases h with
    | @primitive k full => cases k <;> cases same
    | array => cases same

theorem StandsAlone.inhabits {vacant : Prop} {d : Schema} (h : d.StandsAlone) {v : Json}
    (hv : v.InhabitsBranch vacant d) : v.Inhabits vacant d := by
  rcases hv with hv | ⟨tag, w, rfl, named, hw⟩
  · exact hv
  · cases h with
    | primitive full => exact .tagged full named hw
    | array => cases named

theorem StandsAlone.unnamed {d : Schema} (h : d.StandsAlone) : d.isNamedArray = false := by
  cases h <;> rfl

theorem Lone.standsAlone {b : Schema} (h : b.Lone) (plain : b.isCompound = false)
    (full : b ≠ null) : b.StandsAlone := by
  have unnamed := h.unnamed
  cases b with
  | primitive k => exact .primitive fun heq => full (heq ▸ rfl)
  | array n items =>
    cases n with
    | none => exact .array
    | some n => cases unnamed
  | _ => cases plain

/-- Types without plain parts and unions are records. -/
theorem exists_records_of_no_plain {ts : List Schema} (flat : ∀ t ∈ ts, t.isUnion = false)
    (full : ∀ t ∈ ts, t ≠ null) (none : plainParts ts = []) :
    ∃ rs : List Record, ts = rs.map Record.schema := by
  refine exists_eq_map fun t ht => ?_
  cases t with
  | record n fields => exact ⟨⟨n, fields⟩, rfl⟩
  | union bs => cases flat _ ht
  | _ =>
    have plain := mem_plainParts.2 ⟨ht, rfl, full _ ht⟩
    rw [none] at plain
    cases plain

end Schema

/--
Whether records keep their place where the types `ts` are joined to `c`, a place that empty
objects can do without if `vacant` holds.  A record that was a branch of a union must stay
one of the same name, so it has to merge with all other records.
-/
structure KeepsRecords (vacant : Prop) (ts : List Schema) (c : Schema) : Prop where
  branches : (∀ t ∈ ts, t.recordBranches = []) ∨
    (∀ r ∈ recordParts ts, ∀ q ∈ recordParts ts, r.overlaps q = true) ∧
      c.recordBranches ≠ [] ∧
        ∀ t ∈ ts, ∀ q ∈ t.recordBranches, ∀ r ∈ c.recordBranches, r.name = q.name
  empty : vacant ∨ recordParts ts = [] ∨ recordParts [c] ≠ []

instance (vacant : Prop) [Decidable vacant] (ts : List Schema) (c : Schema) :
    Decidable (KeepsRecords vacant ts c) :=
  decidable_of_iff (((∀ t ∈ ts, t.recordBranches = []) ∨
    (∀ r ∈ recordParts ts, ∀ q ∈ recordParts ts, r.overlaps q = true) ∧
      c.recordBranches ≠ [] ∧
        ∀ t ∈ ts, ∀ q ∈ t.recordBranches, ∀ r ∈ c.recordBranches, r.name = q.name) ∧ (vacant ∨ recordParts ts = [] ∨ recordParts [c] ≠ []))
    ⟨fun h => ⟨h.1, h.2⟩, fun h => ⟨h.branches, h.empty⟩⟩

theorem KeepsRecords.inhabits_empty {vacant : Prop} {ts : List Schema} {c t : Schema}
    (kept : KeepsRecords vacant ts c) (good : ∀ t ∈ ts, t.Lone) (ht : t ∈ ts)
    (hv : (Json.object []).Inhabits vacant t) : (Json.object []).Inhabits vacant c := by
  rcases (good t ht).exists_record_of_empty hv with all | ⟨q, compound, hq⟩
  · exact .empty all _
  rcases kept.empty with all | none | place
  · exact .empty all _
  · have hq : q ∈ recordParts ts := mem_recordParts.2 ⟨t, ht, compound, hq⟩
    rw [none] at hq
    cases hq
  · obtain ⟨r, hr⟩ := List.exists_mem_of_ne_nil _ place
    obtain ⟨_, hc, _, hr⟩ := mem_recordParts.1 hr
    cases List.mem_singleton.1 hc
    exact Schema.inhabits_empty hr

/-- What is known of the parts of a union of the types `ts` that is put together. -/
structure AssemblySteps (vacant : Prop) (j : Join) (ts plain : List Schema) (rs : List Record)
    (table : BranchTable) (added : List Schema) (final : BranchTable) : Prop where
  plainBranch : (plainParts ts = [] ∧ plain = []) ∨ ∃ b, plain = [b] ∧ b.Lone ∧
    b.isCompound = false ∧ (∀ t ∈ plainParts ts, b.TakesIn vacant t) ∧ plainParts ts ≠ []
  clusters : Record.clusters j (recordParts ts) = .ok rs
  records : ∀ r ∈ recordParts ts, r.schema.Regular
  regular : ∀ r ∈ rs, r.schema.Regular
  simple : ∀ p ∈ simpleParts ts plain, p.isCompound = false
  apart : rs.Pairwise fun r q => r.overlaps q = false
  placed : BranchTable.Placement table rs added
  holds : BranchTable.Holds Regular (fun s d => d.TakesIn vacant s) (simpleParts ts plain) table
  total : BranchTable.Holds Regular (fun s d => d.TakesIn vacant s)
    (simpleParts ts plain ++ added) final

namespace SoundJoin
variable {vacant : Prop} {j : Join} (hj : SoundJoin vacant j) {ts : List Schema} {c : Schema}

include hj in
theorem exists_assemblySteps (good : ∀ t ∈ ts, t.Lone) (h : assembleUnion j ts = .ok c) :
    ∃ plain rs table added final, AssemblySteps vacant j ts plain rs table added final ∧
      c = final.schema := by
  obtain ⟨plain, rs, table, final, hplain, hrs, htable, hfinal, rfl⟩ := assembleUnion_eq_ok.1 h
  have parts : ∀ p ∈ compoundParts ts, p.Regular ∧ p.isUnion = false :=
    forall_mem_compoundParts fun t ht b hb => (good t ht).toRegular.branch hb
  have plainCase := hj.widens_lone.plainBranch (fun t ht => good t (mem_plainParts.1 ht).1) hplain
  have simple := forall_mem_simpleParts parts (hj.widens.forall_mem_plainBranch
    (fun t ht => (good t (mem_plainParts.1 ht).1).toRegular) hplain)
  have records := forall_mem_recordParts parts
  have clusters := (hj.grows.clusters hrs records).1
  have named : ∀ r ∈ rs, r.FieldsNamed := fun r hr => (regular_record.1 (clusters r hr)).1.2
  have apart := Record.pairwise_clusters hrs
  have holds := BranchTable.holds_of_foldlM hj.widens (fun p hp => (simple p hp).1)
    (fun p hp => (simple p hp).2) htable
  obtain ⟨added, placed, total⟩ := holds.addClusters hj.widens (fun p hp => (simple p hp).2)
    clusters (fun r hr b hb => (SoundJoin.wrapped_spec (clusters r hr) hb).1) named apart hfinal
  exact ⟨plain, rs, table, added, final,
    ⟨plainCase, hrs, records, clusters, fun p hp => (simple p hp).2, apart,
      placed, holds, total⟩, rfl⟩

end SoundJoin

namespace AssemblySteps
variable {vacant : Prop} {j : Join} {ts plain added : List Schema} {rs : List Record}
  {table final : BranchTable}
  (steps : AssemblySteps vacant j ts plain rs table added final)

include steps

/-- What inhabits a cluster is described by a branch that is added for it. -/
theorem exists_added {r : Record} (hr : r ∈ rs) {v : Json} (hv : v.Inhabits vacant r.schema)
    (some : v ≠ .object []) : ∃ s ∈ added, v.InhabitsBranch vacant s := by
  have regular := steps.regular r hr
  cases steps.placed with
  | record free =>
    cases List.mem_singleton.1 hr
    exact ⟨r.schema, List.mem_singleton_self _, .inl hv⟩
  | held wrapped =>
    cases List.mem_singleton.1 hr
    exact ⟨_, List.mem_singleton_self _,
      (SoundJoin.wrapped_spec regular wrapped).2 vacant v hv some⟩
  | wrapped several wrapped =>
    obtain ⟨s, hs, wraps⟩ := exists_right_of_mem wrapped hr
    exact ⟨s, hs, (SoundJoin.wrapped_spec regular wraps).2 vacant v hv some⟩

/-- A branch that is unpacked into a slot that is held leaves no place for records. -/
theorem isCompound_eq_false_of_held {s : Schema} (single : added = [s])
    (held : (Keyed.get? s.slot table).isSome) {k : Slot} {d : Schema}
    (found : Keyed.get? k final = some d) : d.isCompound = false := by
  subst single
  by_contra compound
  have hd := steps.total.compound k d found (eq_true_of_ne_false compound)
  rcases List.mem_append.1 hd with hd | hd
  · exact compound (steps.simple d hd)
  · cases List.mem_singleton.1 hd
    obtain ⟨e, held⟩ := Option.isSome_iff_exists.1 held
    obtain ⟨p, hp, slot⟩ := steps.holds.source _ _ held
    obtain ⟨d', found', into⟩ := steps.total.covers p (List.mem_append_left _ hp)
    rw [slot, steps.total.slot k s found] at found'
    cases found.symm.trans found'
    exact compound (into.plain (steps.simple p hp))

theorem exists_entry_of_recordBranches (kept : final.schema.recordBranches ≠ []) :
    ∃ r ∈ final.schema.recordBranches, ∃ k, Keyed.get? k final = some r.schema := by
  have assembled := steps.total.assembled
  generalize final.schema = c at kept assembled
  cases assembled with
  | nothing => exact absurd rfl kept
  | only single =>
    have entry := (steps.total.get?_of_single single).2 ⟨rfl, rfl⟩
    exact absurd (recordBranches_of_flat (steps.total.flat _ c entry)) kept
  | @union bs _ perm =>
    obtain ⟨d, hd⟩ := List.exists_mem_of_ne_nil _ kept
    obtain ⟨b, hb, hbd⟩ := List.mem_filterMap.1 hd
    obtain ⟨⟨k, b⟩, hmem, rfl⟩ := List.mem_map.1 (perm.mem_iff.1 hb)
    have heq : d.schema = b := schema_of_record? hbd
    exact ⟨d, hd, k, heq ▸ steps.total.mem_iff.1 hmem⟩

/-- Where the records of unions stay a branch, the records form one cluster, which is added. -/
theorem added_eq_of_recordBranches (overlap : ∀ r ∈ recordParts ts, ∀ q ∈ recordParts ts,
    r.overlaps q = true) {q : Record} (hq : q ∈ recordParts ts)
    (kept : final.schema.recordBranches ≠ []) :
    ∃ r ∈ final.schema.recordBranches, rs = [r] ∧ added = [r.schema] := by
  obtain ⟨r, rfl⟩ :=
    Record.exists_single_of_overlapping overlap (List.ne_nil_of_mem hq) steps.clusters
  obtain ⟨d, mem, k, found⟩ := steps.exists_entry_of_recordBranches kept
  cases steps.placed with
  | record free =>
    have source := steps.total.compound k d.schema found rfl
    rcases List.mem_append.1 source with simple | added
    · cases steps.simple _ simple
    · have same : d = r := Record.schema_injective (List.mem_singleton.1 added)
      exact ⟨r, same ▸ mem, rfl, rfl⟩
  | held wrapped held => cases steps.isCompound_eq_false_of_held rfl held found
  | wrapped several => exact absurd rfl several

/-- If one branch is left and unions have no records for branches, there are no unions. -/
theorem flat_of_single (good : ∀ t ∈ ts, t.Lone) (none : ∀ t ∈ ts, t.recordBranches = [])
    {d : Schema} (single : final = [(d.slot, d)]) : ∀ t ∈ ts, t.isUnion = false := by
  intro t ht
  cases t with
  | union bs =>
    obtain ⟨several, _, _, slots⟩ := (good _ ht).tidy.self
    have only : ∀ p ∈ bs, p.slot = d.slot := by
      intro p hp
      have simple : p ∈ simpleParts ts plain :=
        mem_simpleParts_of_branch ht hp (List.filterMap_eq_nil_iff.1 (none _ ht) p hp)
      obtain ⟨e, found, _⟩ := steps.total.covers p (List.mem_append_left _ simple)
      exact ((steps.total.get?_of_single single).1 found).1
    match bs with
    | [] | [_] => simp at several
    | p :: p' :: _ =>
      have same := (only p (by simp)).trans (only p' (by simp)).symm
      simp [same] at slots
  | _ => rfl

section Single
variable (full : ∀ t ∈ ts, t ≠ Schema.null)
  (several : ∀ qs : List Record, ts = qs.map Record.schema → ∀ r, Record.clusters j qs ≠ .ok [r])
include full several

/-- Records that do not merge are wrapped, and only wrappers of numbers share one slot. -/
theorem slot_eq_number_of_no_plain (flat : ∀ t ∈ ts, t.isUnion = false)
    (none : plainParts ts = [] ∧ plain = []) {d : Schema} (single : final = [(d.slot, d)]) :
    d.slot = .number := by
  obtain ⟨none, rfl⟩ := none
  have sources := simpleParts_of_flat flat []
  cases steps.placed with
  | @record r free =>
    obtain ⟨qs, heq⟩ := exists_records_of_no_plain flat full none
    have clusters := steps.clusters
    rw [recordParts_of_flat flat, heq, filterMap_record?_schema] at clusters
    exact absurd clusters (several qs heq r)
  | held wrapped held =>
    obtain ⟨e, held⟩ := Option.isSome_iff_exists.1 held
    obtain ⟨p, hp, _⟩ := steps.holds.source _ _ held
    rw [sources] at hp
    cases hp
  | wrapped count wrapped =>
    have named : ∀ r ∈ rs, r.FieldsNamed := fun r hr => (regular_record.1 (steps.regular r hr)).1.2
    rcases steps.total.eq_number count wrapped named steps.apart
      fun k b found => ((steps.total.get?_of_single single).1 found).1 with rfl | number
    · obtain ⟨p, hp, _⟩ := steps.total.source _ _ ((steps.total.get?_of_single single).2 ⟨rfl, rfl⟩)
      rw [sources] at hp
      cases hp
    · exact number

/-- The one branch that is left of types that do not merge can stand for itself. -/
theorem standsAlone_of_single (good : ∀ t ∈ ts, t.Lone) (none : ∀ t ∈ ts, t.recordBranches = [])
    {d : Schema} (single : final = [(d.slot, d)]) : d.StandsAlone := by
  have flat := steps.flat_of_single good none single
  rcases steps.plainBranch with none | ⟨b, rfl, lone, plain, into, some⟩
  · have number := steps.slot_eq_number_of_no_plain full several flat none single
    refine standsAlone_of_slot (b := .primitive .int) (.primitive nofun) number ?_
    rintro rfl
    cases number
  · have hb : b ∈ simpleParts ts [b] ++ added := by rw [simpleParts_of_flat flat]; simp
    obtain ⟨e, found, grown⟩ := steps.total.covers b hb
    obtain ⟨same, rfl⟩ := (steps.total.get?_of_single single).1 found
    obtain ⟨t, ht⟩ := List.exists_mem_of_ne_nil _ some
    have notNull : b ≠ Schema.null := fun heq => (mem_plainParts.1 ht).2.2 ((into t ht).null heq)
    exact standsAlone_of_slot (lone.standsAlone plain notNull) same.symm
      fun heq => notNull (grown.null heq)

end Single

end AssemblySteps

namespace SoundJoin
variable {vacant : Prop} {j : Join} (hj : SoundJoin vacant j) {ts : List Schema} {c : Schema}

section Branches
variable {plain added : List Schema} {rs : List Record} {table final : BranchTable}
  (steps : AssemblySteps vacant j ts plain rs table added final) {v : Json}
include hj steps

theorem exists_inhabitsBranch_of_record {q : Record} (hq : q ∈ recordParts ts)
    (hv : v.Inhabits vacant q.schema) (some : v ≠ .object []) :
    ∃ s ∈ simpleParts ts plain ++ added, v.InhabitsBranch vacant s := by
  obtain ⟨_, cover⟩ := hj.grows.clusters steps.clusters steps.records
  obtain ⟨r, hr, into⟩ := cover q hq
  obtain ⟨s, hs, described⟩ := steps.exists_added hr (into v hv) some
  exact ⟨s, List.mem_append_right _ hs, described⟩

/-- What a branch describes is described by a branch again, also if it is a tagged record. -/
theorem exists_inhabitsBranch_of_branch (kept : KeepsRecords vacant ts final.schema)
    {bs : List Schema} {p : Schema} (ht : .union bs ∈ ts) (hp : p ∈ bs)
    (hv : v.InhabitsBranch vacant p) :
    ∃ s ∈ simpleParts ts plain ++ added, v.InhabitsBranch vacant s := by
  cases isRecord : p.record? with
  | none =>
    exact ⟨p, List.mem_append_left _ (mem_simpleParts_of_branch ht hp isRecord), hv⟩
  | some q =>
    have heq := schema_of_record? isRecord
    have hq : q ∈ recordParts ts := mem_recordParts.2 ⟨_, ht, rfl, heq ▸ hp⟩
    have branch : q ∈ (Schema.union bs).recordBranches := List.mem_filterMap.2 ⟨p, hp, isRecord⟩
    rcases kept.branches with none | ⟨overlap, kept, named⟩
    · rw [none _ ht] at branch
      cases branch
    -- all records merge into one, which is a branch and has the name of `q`
    · obtain ⟨r, mem, rfl, rfl⟩ := steps.added_eq_of_recordBranches overlap hq kept
      obtain ⟨_, cover⟩ := hj.grows.clusters steps.clusters steps.records
      obtain ⟨_, hr, into⟩ := cover q hq
      cases List.mem_singleton.1 hr
      have name := named _ ht q branch r mem
      refine ⟨r.schema, List.mem_append_right _ (List.mem_singleton_self _), ?_⟩
      rw [← heq] at hv
      rcases hv with hv | ⟨tag, w, rfl, named, hw⟩
      · exact .inl (into v hv)
      · exact .inr ⟨tag, w, rfl, name.trans named, into w hw⟩

/-- What inhabits one of the types is described by one of the branches that make the union. -/
theorem exists_inhabitsBranch (good : ∀ t ∈ ts, t.Lone) (full : ∀ t ∈ ts, t ≠ null)
    (kept : KeepsRecords vacant ts final.schema) {t : Schema} (ht : t ∈ ts)
    (hv : v.Inhabits vacant t) (some : v ≠ .object []) :
    ∃ s ∈ simpleParts ts plain ++ added, v.InhabitsBranch vacant s := by
  cases t with
  | record n fields =>
    have hq : ⟨n, fields⟩ ∈ recordParts ts := mem_recordParts.2 ⟨_, ht, rfl, List.mem_cons_self⟩
    exact hj.exists_inhabitsBranch_of_record steps hq hv some
  | union bs =>
    have ofBranch {p : Schema} (hp : p ∈ bs) (hv : v.InhabitsBranch vacant p) :=
      hj.exists_inhabitsBranch_of_branch steps kept ht hp hv
    obtain ⟨several, _⟩ := (good _ ht).tidy.self
    obtain ⟨p, hp⟩ : ∃ p, p ∈ bs := List.exists_mem_of_length_pos (by omega)
    cases hv with
    | empty => exact absurd rfl some
    | null => exact ofBranch hp (.inl (.null p))
    | branch mem fits => exact ofBranch mem (.inl fits)
    | wrapped mem named fits => exact ofBranch mem (.inr ⟨_, _, rfl, named, fits⟩)
  | _ =>
    have hp := mem_plainParts.2 ⟨ht, rfl, full _ ht⟩
    rcases steps.plainBranch with ⟨none, _⟩ | ⟨b, rfl, _, _, into, _⟩
    · rw [none] at hp
      cases hp
    · refine ⟨b, List.mem_append_left _ (List.mem_append_right _ (List.mem_singleton_self b)), ?_⟩
      exact .inl ((into _ hp).values v hv)

theorem exists_described (good : ∀ t ∈ ts, t.Lone) (full : ∀ t ∈ ts, t ≠ null)
    (kept : KeepsRecords vacant ts final.schema) {t : Schema} (ht : t ∈ ts)
    (hv : v.Inhabits vacant t) (filled : v ≠ .object []) :
    ∃ k d, Keyed.get? k final = some d ∧ v.InhabitsBranch vacant d := by
  obtain ⟨s, hs, hv⟩ := hj.exists_inhabitsBranch steps good full kept ht hv filled
  obtain ⟨d, found, into⟩ := steps.total.covers s hs
  exact ⟨s.slot, d, found, into.inhabitsBranch (steps.total.slot _ _ found) hv⟩

end Branches

include hj in
/-- A union that is put together holds what inhabits its parts. -/
theorem subsumes_assembleUnion (good : ∀ t ∈ ts, t.Lone) (full : ∀ t ∈ ts, t ≠ null)
    (several : ∀ qs : List Record, ts = qs.map Record.schema →
      ∀ r, Record.clusters j qs ≠ .ok [r])
    (kept : KeepsRecords vacant ts c) (h : assembleUnion j ts = .ok c) :
    c.Lone ∧ ∀ t ∈ ts, c.Subsumes vacant t := by
  have tidy := (hj.tidy.tidy_assembleUnion (fun t ht => (good t ht).tidy) h).1
  obtain ⟨plain, rs, table, added, final, steps, rfl⟩ := hj.exists_assemblySteps good h
  have described (t : Schema) (ht : t ∈ ts) (v : Json) (hv : v.Inhabits vacant t)
      (filled : v ≠ .object []) := hj.exists_described steps good full kept ht hv filled
  suffices filled : final.schema.Lone ∧ ∀ t ∈ ts, ∀ v : Json, v.Inhabits vacant t →
      v ≠ .object [] → v.Inhabits vacant final.schema by
    refine ⟨filled.1, fun t ht v hv => ?_⟩
    by_cases none : v = .object []
    · subst none
      exact kept.inhabits_empty good ht hv
    · exact filled.2 t ht v hv none
  have assembled := steps.total.assembled
  have branches := kept.branches
  clear kept
  generalize final.schema = c at tidy branches assembled
  cases assembled with
  | nothing none =>
    refine ⟨lone_primitive _, fun t ht v hv filled => ?_⟩
    obtain ⟨k, d, found, _⟩ := described t ht v hv filled
    rw [none] at found
    cases found
  | only single =>
    have entry : Keyed.get? c.slot final = some c :=
      (steps.total.get?_of_single single).2 ⟨rfl, rfl⟩
    rcases branches with none | ⟨_, kept⟩
    · have alone := steps.standsAlone_of_single full several good none single
      refine ⟨⟨steps.total.keeps _ _ entry, alone.unnamed⟩, fun t ht v hv filled => ?_⟩
      obtain ⟨k, d, found, hv⟩ := described t ht v hv filled
      obtain ⟨_, rfl⟩ := (steps.total.get?_of_single single).1 found
      exact alone.inhabits hv
    · exact absurd (recordBranches_of_flat (steps.total.flat _ _ entry)) kept.1
  | @union bs _ perm =>
    have branch {k : Slot} {d : Schema} (found : Keyed.get? k final = some d) : d ∈ bs :=
      perm.mem_iff.2 (List.mem_map_of_mem (steps.total.mem_iff.2 found))
    refine ⟨⟨⟨tidy, everywhere_union.2 ⟨trivial, fun b hb => ?_⟩⟩, rfl⟩,
      fun t ht v hv filled => ?_⟩
    · obtain ⟨⟨k, d⟩, hmem, rfl⟩ := List.mem_map.1 (perm.mem_iff.1 hb)
      exact (steps.total.keeps k d (steps.total.mem_iff.1 hmem)).parts
    · obtain ⟨k, d, found, hv⟩ := described t ht v hv filled
      rcases hv with hv | ⟨tag, w, rfl, named, hw⟩
      · exact .branch (branch found) hv
      · exact .wrapped (branch found) named hw

include hj in
/-- The join of a collection holds what inhabits its types. -/
theorem subsumes_joinAllWith (good : ∀ t ∈ ts, t.Lone)
    (kept : KeepsRecords vacant (Strict.candidates ts) c) (h : Strict.joinAllWith j ts = .ok c) :
    c.Lone ∧ ∀ t ∈ ts, c.Subsumes vacant t := by
  have candidate {t : Schema} (ht : t ∈ Strict.candidates ts) : t ∈ ts ∧ t ≠ null :=
    Strict.mem_candidates.1 ht
  have good : ∀ t ∈ Strict.candidates ts, t.Lone := fun t ht => good t (candidate ht).1
  suffices candidates : c.Lone ∧ ∀ t ∈ Strict.candidates ts, c.Subsumes vacant t by
    refine ⟨candidates.1, fun t ht => ?_⟩
    by_cases isNull : t = null
    · rw [isNull]
      exact fun v hv => hv.of_null c
    · exact candidates.2 t (Strict.mem_candidates.2 ⟨ht, isNull⟩)
  cases joinedAll_of_joinAllWith h with
  | plain plain joined =>
    obtain ⟨lone, _, into⟩ :=
      hj.widens_lone.joinList_or_null (lone_primitive .null) good plain joined
    exact ⟨lone, fun t ht => (into t ht).values⟩
  | @record rs r records clusters eq =>
    subst eq
    rw [records] at good ⊢
    obtain ⟨regular, cover⟩ := hj.grows.clusters clusters fun q hq =>
      (good _ (List.mem_map_of_mem hq)).toRegular
    refine ⟨(regular r List.mem_cons_self).lone_record, List.forall_mem_map.2 fun q hq => ?_⟩
    obtain ⟨_, hr, into⟩ := cover q hq
    cases List.mem_singleton.1 hr
    exact into
  | union compound several assembled =>
    exact hj.subsumes_assembleUnion good (fun t ht => (candidate ht).2) several kept assembled

end SoundJoin

namespace Strict
variable (vacant : Prop) [Decidable vacant]

/-- Whether records keep their names and their place where the join of `a` and `b` is `c`. -/
def keepsBranches (a b c : Schema) : Bool :=
  keepsName a b c && (a = b || a = null || b = null || KeepsRecords vacant [a, b] c)

/-- Whether all records keep their place where the types of a collection are joined. -/
def KeepsAllRecords (types : List Schema) : Prop :=
  JoinsUnder (keepsBranches vacant) types ∧
    ∀ items, joinAllWith join types = .ok items → KeepsRecords vacant (candidates types) items

instance : DecidablePred (KeepsAllRecords vacant) := fun types =>
  inferInstanceAs (Decidable (JoinsUnder (keepsBranches vacant) types ∧
    ∀ items, joinAllWith join types = .ok items → KeepsRecords vacant (candidates types) items))

variable {vacant}

theorem keepsAllRecords_of_eq_ok {types : List Schema} (items : Schema)
    (joined : joinAllWith join types = .ok items)
    (under : joinAllWith (joinUnder (keepsBranches vacant)) types = .ok items)
    (kept : KeepsRecords vacant (candidates types) items) : KeepsAllRecords vacant types := by
  refine ⟨joinsUnder_of_eq_ok items joined under, fun c joined' => ?_⟩
  cases joined.symm.trans joined'
  exact kept

theorem soundJoin_joinWith {j : Join} (hj : SoundJoin vacant j) {a b c : Schema} (ha : a.Lone)
    (hb : b.Lone) (h : joinWith j a b = .ok c) (kept : keepsBranches vacant a b c = true) :
    c.Lone ∧ c.Subsumes vacant a ∧ c.Subsumes vacant b := by
  cases joined_of_joinWith h with
  | same => exact ⟨ha, .refl a, .refl a⟩
  | nullLeft => exact ⟨hb, fun v hv => hv.of_null b, .refl b⟩
  | nullRight => exact ⟨ha, .refl a, fun v hv => hv.of_null a⟩
  | collection ne fulla fullb joined =>
    have records : KeepsRecords vacant (candidates [a, b]) c := by
      rw [candidates_pair ne fulla fullb]
      simpa [ne, fulla, fullb] using (Bool.and_eq_true_iff.1 kept).2
    obtain ⟨lone, into⟩ := hj.subsumes_joinAllWith (forall_mem_pair.2 ⟨ha, hb⟩) records joined
    exact ⟨lone, forall_mem_pair.1 into⟩
  | plain joined =>
    obtain ⟨lone, hac, hbc⟩ := hj.widens_lone.join ha hb joined
    exact ⟨lone, hac.values, hbc.values⟩

variable (vacant)

theorem soundJoin_joinUnderWithin (level : Nat) :
    SoundJoin vacant (joinUnderWithin (keepsBranches vacant) level) := by
  have tidy (level : Nat) : TidyJoin (joinUnderWithin (keepsBranches vacant) level) := by
    refine tidyJoin_joinUnderWithin (fun a b c kept => ?_) level
    exact (Bool.and_eq_true_iff.1 kept).1
  induction level with
  | zero => exact ⟨tidy 0, fun _ _ => nofun, fun _ _ => nofun⟩
  | succ level ih =>
    refine ⟨tidy (level + 1), fun ha hb h => ?_, fun ha hb h => ?_⟩
    · obtain ⟨joined, kept⟩ := joinUnderWithin_succ_eq_ok.1 h
      exact (soundJoin_joinWith ih ha hb joined kept).1
    · obtain ⟨joined, kept⟩ := joinUnderWithin_succ_eq_ok.1 h
      exact (soundJoin_joinWith ih ha hb joined kept).2

theorem soundJoin_joinUnder : SoundJoin vacant (joinUnder (keepsBranches vacant)) where
  tidy := ⟨fun ha hb h => (soundJoin_joinUnderWithin vacant _).tidy.tidy ha hb h,
    fun ha hb h => (soundJoin_joinUnderWithin vacant _).tidy.record ha hb h⟩
  lone ha hb h := (soundJoin_joinUnderWithin vacant _).lone ha hb h
  subsumes ha hb h := (soundJoin_joinUnderWithin vacant _).subsumes ha hb h

/-- The items of an array hold what inhabits one of the types that they are joined from. -/
theorem subsumes_of_keepsAllRecords {types : List Schema} {items : Schema}
    (good : ∀ t ∈ types, t.Lone) (kept : KeepsAllRecords vacant types)
    (joined : joinAllWith join types = .ok items) :
    items.Lone ∧ ∀ t ∈ types, items.Subsumes vacant t :=
  (soundJoin_joinUnder vacant).subsumes_joinAllWith good (kept.2 items joined) (kept.1 items joined)

end Strict

/--
What is asked of an array: where its types are joined, all records keep their place, or
they lose it to empty objects only, and a record stands wherever there is one in the elements.
-/
def DistinguishedElements (elements : List Json) (types : List Schema) : Prop :=
  Strict.KeepsAllRecords False types ∨
    Strict.KeepsAllRecords True types ∧ ∀ items,
      Strict.joinAllWith Strict.join types = .ok items → ∀ v ∈ elements, v.EmptyPlaced items

/-- A schema that stands for a document and is inhabited by it. -/
structure Json.IsSound (name : Text) (v : Json) (t : Schema) : Prop where
  lone : t.Lone
  record : ∀ r : Record, t = r.schema → r.name = name
  inhabits : v.DistinctNames → v.Inhabits False t

namespace Json.IsSound
variable {name : Text}

theorem object {members : List (Text × Json)} {fields : List (Text × Schema)}
    (parts : List.Forall₂ (fun m f => m.1 = f.1 ∧ IsSound m.1 m.2 f.2) members fields) :
    IsSound name (.object members) (Record.ofFields name fields).schema := by
  have part {f : Text} {t : Schema} (found : (Record.ofFields name fields).field? f = some t) :
      ∃ v, (f, v) ∈ members ∧ IsSound f v t := exists_member_of_field? parts found
  have named : (Record.ofFields name fields).FieldsNamed := by
    intro f m gs found
    obtain ⟨v, _, hv⟩ := part found
    exact hv.record ⟨m, gs⟩ rfl
  refine ⟨(regular_record.2 ⟨⟨Record.ascending_sortFields fields, named⟩,
    fun f t found => ?_⟩).lone_record, fun r heq => ?_, fun distinct => ?_⟩
  · obtain ⟨v, _, hv⟩ := part found
    exact hv.lone
  · have heq : Record.ofFields name fields = r := by simpa using congrArg record? heq
    rw [← heq]
    rfl
  · obtain ⟨names, inner⟩ := everyObject_object.1 distinct
    refine .object names (fun f v hmem => ?_) fun f v t hmem found => ?_
    · obtain ⟨t, found, _⟩ := exists_field?_of_member name parts names hmem
      exact ⟨t, found⟩
    · obtain ⟨s, again, hs⟩ := exists_field?_of_member name parts names hmem
      cases found.symm.trans again
      exact hs.inhabits (inner (f, v) hmem)

theorem array {elements : List Json} {types : List Schema} {items : Schema}
    (parts : List.Forall₂ (IsSound name) elements types)
    (kept : DistinguishedElements elements types)
    (joined : Strict.joinAllWith Strict.join types = .ok items) :
    IsSound name (.array elements) (.array none items) := by
  have lone : ∀ t ∈ types, t.Lone := by
    intro t ht
    obtain ⟨v, _, hv⟩ := exists_left_of_mem parts ht
    exact hv.lone
  suffices sound : items.Lone ∧ (DistinctNames (.array elements) →
      ∀ v ∈ elements, v.Inhabits False items) by
    exact ⟨⟨regular_array.2 sound.1, rfl⟩, nofun, fun distinct => .array (sound.2 distinct)⟩
  have part (distinct : DistinctNames (.array elements)) {v : Json} (hv : v ∈ elements) :
      ∃ t ∈ types, v.Inhabits False t := by
    obtain ⟨t, ht, hvt⟩ := exists_right_of_mem parts hv
    exact ⟨t, ht, hvt.inhabits (everyObject_array.1 distinct v hv)⟩
  rcases kept with kept | ⟨kept, placed⟩
  · obtain ⟨loneItems, into⟩ := Strict.subsumes_of_keepsAllRecords False lone kept joined
    refine ⟨loneItems, fun distinct v hv => ?_⟩
    obtain ⟨t, ht, inhabits⟩ := part distinct hv
    exact into t ht v inhabits
  · obtain ⟨loneItems, into⟩ := Strict.subsumes_of_keepsAllRecords True lone kept joined
    refine ⟨loneItems, fun distinct v hv => ?_⟩
    obtain ⟨t, ht, inhabits⟩ := part distinct hv
    exact (into t ht v (inhabits.weaken False.elim)).of_emptyPlaced (placed items joined v hv)

end Json.IsSound

theorem inferenceInvariant_isSound {settings : Settings} (strict : settings.mode = .strict) :
    InferenceInvariant settings DistinguishedElements fun name v t => v.IsSound name t where
  scalar name s k hk :=
    ⟨lone_primitive k, nofun, fun _ => .scalar (Scalar.fits_kind (strict ▸ hk))⟩
  object name members fields _ parts := .object parts
  array name elements types items parts kept joined := .array parts kept (by rwa [strict] at joined)

/--
A document fits its schema, tags being read, if its arrays have elements that their types
tell apart.
-/
theorem infer_fits {settings : Settings} (strict : settings.mode = .strict)
    {name path : Text} {depth : Int} {v : Json} {t : Schema} (distinct : v.DistinctNames)
    (kept : v.EveryArray DistinguishedElements settings name path depth)
    (inferred : infer settings name path depth v = .ok t) : v.Fits True t :=
  (((inferenceInvariant_isSound strict).infer kept inferred).inhabits distinct).fits

/--
Unions with records for branches are joined, one of them for an empty object; and an empty
object stands beside records whose fields are unpacked.
-/
theorem infer_fits_of_merged_branches :
    (Json.array [
      .array [.object [("a", .object [("x", .integer 1)])], .object [("string", .string "s")]],
      .array [.object [("a", .object [])], .object [("string", .string "t")]]]).Fits True
      (.array none (.array none
        (.union [.primitive .string, .record "a" [("x", .primitive .int)]]))) ∧
    (Json.array [.object [], .object [("f", .object [("int", .integer 1)])],
      .object [("f", .object [("string", .string "s")])]]).Fits True
      (.array none (.record "r" [("f", .union [.primitive .int, .primitive .string])])) := by
  constructor
  case right =>
    let one : Json := .object [("f", .object [("int", .integer 1)])]
    let other : Json := .object [("f", .object [("string", .string "s")])]
    let items : Schema := .record "r" [("f", .union [.primitive .int, .primitive .string])]
    have union := unionOf_pair (.primitive .int) (.primitive .string) rfl rfl (by decide)
    have placed (v : Json) (hv : v ∈ [.object [], one, other]) : v.EmptyPlaced items := by
      simp only [List.mem_cons, List.not_mem_nil, or_false] at hv
      rcases hv with rfl | rfl | rfl
      · exact .empty (r := ⟨"r", _⟩) List.mem_cons_self
      · exact .full (by decide) items
      · exact .full (by decide) items
    let wrapper (k : Kind) : Schema := .record "f" [(k.keyword, .primitive k)]
    have rows {j : Join} (h : j (wrapper .int) (wrapper .string) =
        .ok (.union [.primitive .int, .primitive .string])) :
        Strict.joinAllWith j [.record "r" [], .record "r" [("f", wrapper .int)],
          .record "r" [("f", wrapper .string)]] = .ok items :=
      Strict.joinAllWith_beside_empty (by decide) h
    have joined := @rows Strict.join (congrArg Except.ok union)
    have under := @rows (Strict.joinUnder (Strict.keepsBranches True))
      (Strict.joinUnderWithin_succ_eq_ok.2 ⟨congrArg Except.ok union, by decide⟩)
    have kept : (Json.array [.object [], one, other]).EveryArray
        DistinguishedElements {} "r" "r" 0 := by
      refine Json.everyArray_array_of_eq_ok rfl (.inr ⟨?_, fun c hc v hv => ?_⟩)
        ⟨trivial, ⟨⟨trivial, trivial⟩, trivial⟩, ⟨⟨trivial, trivial⟩, trivial⟩, trivial⟩
      · exact Strict.keepsAllRecords_of_eq_ok items joined under (by decide)
      · cases joined.symm.trans hc
        exact placed v hv
    exact infer_fits rfl (by decide) kept (infer_array_eq_ok.2 ⟨by decide, _, _, rfl, joined, rfl⟩)
  let row (members : List (Text × Json)) (s : Text) : Json :=
    .array [.object [("a", .object members)], .object [("string", .string s)]]
  let both (fields : List (Text × Schema)) : Schema :=
    .union [.primitive .string, .record "a" fields]
  let int : List (Text × Schema) := [("x", .primitive .int)]
  have union (fields : List (Text × Schema)) :=
    unionOf_pair (.primitive .string) (.record "a" fields) rfl rfl rfl
  have swapped (fields : List (Text × Schema)) :
      unionOf [.record "a" fields, .primitive .string] = both fields := by
    refine (unionOf_perm (.swap _ _ []) (forall_mem_pair.2 ⟨rfl, rfl⟩) ?_).trans (union fields)
    simp [branchLabel]
  have first : infer {} "r" "r[0]" 1 (row [("x", .integer 1)] "s") = .ok (.array none (both int)) :=
    congrArg (fun u => Except.ok (Schema.array none u)) (swapped int)
  have second : infer {} "r" "r[1]" 1 (row [] "t") = .ok (.array none (both [])) :=
    congrArg (fun u => Except.ok (Schema.array none u)) (swapped [])
  have found : inferElements {} "r" "r" 0 0 [row [("x", .integer 1)] "s", row [] "t"] =
      .ok [.array none (both int), .array none (both [])] :=
    inferElements_cons_eq_ok.2
      ⟨_, _, first, inferElements_cons_eq_ok.2 ⟨_, _, second, rfl, rfl⟩, rfl⟩
  have joined : Strict.joinAllWith Strict.join [.array none (both int), .array none (both [])] =
      .ok (.array none (both int)) :=
    Strict.joinAllWith_arrays (by decide) (congrArg Except.ok (union int))
  have below : Strict.joinUnder (Strict.keepsBranches False) (both int) (both []) =
      .ok (both int) :=
    Strict.joinUnderWithin_succ_eq_ok.2 ⟨congrArg Except.ok (union int), by decide⟩
  have kept : (Json.array [row [("x", .integer 1)] "s", row [] "t"]).EveryArray
      DistinguishedElements {} "r" "r" 0 := by
    refine Json.everyArray_array_of_eq_ok found (.inl ?outer)
      ⟨Json.everyArray_array_of_eq_ok rfl (.inl ?first) ⟨⟨⟨trivial, trivial⟩, trivial⟩,
          ⟨trivial, trivial⟩, trivial⟩,
        Json.everyArray_array_of_eq_ok rfl (.inl ?second) ⟨⟨trivial, trivial⟩,
          ⟨trivial, trivial⟩, trivial⟩, trivial⟩
    case outer =>
      exact Strict.keepsAllRecords_of_eq_ok _ joined
        (Strict.joinAllWith_arrays (by decide) below) (by decide)
    case first =>
      exact Strict.keepsAllRecords_of_eq_ok (both int) (congrArg Except.ok (swapped int))
        (congrArg Except.ok (swapped int)) (by decide)
    case second =>
      exact Strict.keepsAllRecords_of_eq_ok (both []) (congrArg Except.ok (swapped []))
        (congrArg Except.ok (swapped [])) (by decide)
  exact infer_fits rfl (by decide) kept (infer_array_eq_ok.2 ⟨by decide, _, _, found, joined, rfl⟩)

/-- An empty object is lost where records are unpacked into the branches of a union. -/
theorem exists_infer_not_fits : ∃ (v : Json) (t : Schema),
    infer {} "r" "r" 0 v = .ok t ∧ ¬ v.Fits True t := by
  refine ⟨.array [.object [], .object [("int", .integer 1)], .object [("string", .string "x")]],
    .array none (.union [.primitive .int, .primitive .string]), ?_, fun h => ?_⟩
  · have union := unionOf_pair (.primitive .int) (.primitive .string) rfl rfl (by decide)
    exact congrArg (fun u => Except.ok (Schema.array none u)) union
  cases h with
  | array fits =>
    cases fits (.object []) List.mem_cons_self with
    | branch mem fits =>
      rcases (show _ = _ ∨ _ = _ by simpa using mem) with rfl | rfl <;> cases fits

end SchemaInference
