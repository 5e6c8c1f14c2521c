import SchemaInference.Proofs.StableUnions
import SchemaInference.Proofs.Symmetry

/-!
# Unions that absorb a type

A type that comes to a union may leave it as it is.  If the union keeps its own branches when
it is put together again, these are the types that leave the branch of their slot as it is:
plain types, records that the record of the union takes up, and where the union has no record,
wrappers of what a branch takes up.
-/

namespace SchemaInference

open Schema

theorem Keyed.put_eq_self {κ α : Type} [DecidableEq κ] {k : κ} {v : α} {entries : List (κ × α)}
    (used : get? k entries = some v) : put k v entries = entries := by
  obtain ⟨front, back, rfl, replaced⟩ := exists_put_of_used used
  exact replaced v

section Candidate
variable {j : Join} {bs : List Schema} {b c w : Schema} {r q R : Record}

theorem get?_otherTable (distinct : (bs.map slot).Nodup) (hb : b ∈ bs) (other : b.record? = none) :
    Keyed.get? b.slot (otherTable bs) = some b := by
  have sub : ((otherBranches bs).map slot).Nodup :=
    distinct.sublist (List.filter_sublist.map slot)
  rw [Keyed.get?_eq_some_iff (by rw [keys_otherTable]; exact sub)]
  exact List.mem_map.2 ⟨b, mem_otherBranches.2 ⟨hb, other⟩, rfl⟩

/-- What comes to a branch that is not changed by it leaves the table as it is. -/
theorem BranchTable.add_eq_self {table : BranchTable} (held : Keyed.get? c.slot table = some b)
    (flat : b.isUnion = false) (joined : joinPlain .strict j b c = .ok b) :
    table.add j c = .ok table := by
  rw [add_eq, held, fill_of_joinPlain joined flat, Except.map, Keyed.put_eq_self held]

theorem compoundParts_with_plain (plain : c.isCompound = false) :
    compoundParts [.union bs, c] = bs := by
  rw [compoundParts, List.filter_cons_of_pos rfl, List.filter_cons_of_neg (by simp [plain])]
  exact List.append_nil bs

theorem plainParts_with_plain (plain : c.isCompound = false) (full : c ≠ null) :
    plainParts [.union bs, c] = [c] := by
  have compound : (Schema.union bs).isCompound = true := rfl
  simp [plainParts, compound, plain, full]

theorem assembleUnion_with_null (j : Join) (bs : List Schema) :
    assembleUnion j [.union bs, null] = assembleUnion j [.union bs] := by
  have plains : plainParts [.union bs, null] = plainParts [.union bs] := by
    simp [plainParts, isCompound]
  have compounds : compoundParts [.union bs, null] = compoundParts [.union bs] :=
    (compoundParts_with_plain rfl).trans (List.append_nil bs).symm
  unfold assembleUnion plainBranch
  rw [plains, compounds]

/-- A union that keeps its branches absorbs a plain type that does not change its branch. -/
theorem Schema.KeepsBranches.assembleUnion_plain (h : KeepsBranches bs)
    (orderly : (Schema.union bs).Orderly) (plain : c.isCompound = false) (full : c ≠ null)
    (hb : b ∈ bs) (slot : b.slot = c.slot) (joined : joinPlain .strict j b c = .ok b) :
    SchemaInference.assembleUnion j [.union bs, c] = .ok (.union bs) := by
  have compounds : compoundParts [.union bs, c] = bs := compoundParts_with_plain plain
  have branch : plainBranch j [.union bs, c] = .ok [c] := by
    rw [plainBranch, plainParts_with_plain plain full]
    rfl
  apply h.assembleUnion_of_parts orderly branch
  · rw [recordParts, compounds]
    exact h.clusters
  · have other := record?_eq_none (isCompound_of_joinPlain joined).1
    have held := get?_otherTable h.distinct hb other
    rw [slot] at held
    rw [simpleParts, compounds, List.foldlM_append]
    change (otherBranches bs).foldlM _ _ >>= _ = _
    rw [h.foldlM_others]
    exact (bind_pure _).trans
      (BranchTable.add_eq_self held (orderly.self.2.1 b hb) joined)

theorem compoundParts_with_record (bs : List Schema) (r : Record) :
    compoundParts [.union bs, r.schema] = bs ++ [r.schema] := by
  rfl

theorem plainBranch_with_record (j : Join) (bs : List Schema) (r : Record) :
    plainBranch j [.union bs, r.schema] = .ok [] := by
  rfl

theorem simpleParts_with_record (bs : List Schema) (r : Record) :
    simpleParts [.union bs, r.schema] [] = otherBranches bs := by
  have none : [r.schema].filter (fun p => p.record?.isNone) = [] := rfl
  rw [simpleParts, compoundParts_with_record, List.filter_append, none, List.append_nil,
    List.append_nil, otherBranches]

theorem Schema.KeepsBranches.records_of_mem (h : KeepsBranches bs) (hr : r.schema ∈ bs) :
    bs.filterMap record? = [r] := by
  have mem : r ∈ bs.filterMap record? := mem_filterMap_record?.2 hr
  rcases h.records_eq with none | ⟨a, single⟩
  · rw [none] at mem
    cases mem
  · rw [single] at mem ⊢
    rw [List.mem_singleton.1 mem]

/-- A union that keeps its branches absorbs a record that does not change its record. -/
theorem Schema.KeepsBranches.assembleUnion_record (h : KeepsBranches bs)
    (orderly : (Schema.union bs).Orderly) (hr : r.schema ∈ bs) (overlap : r.overlaps q = true)
    (merged : r.merge j q = .ok r) :
    SchemaInference.assembleUnion j [.union bs, q.schema] = .ok (.union bs) := by
  apply h.assembleUnion_of_parts orderly (plainBranch_with_record j bs q)
  · rw [recordParts, compoundParts_with_record, List.filterMap_append, h.records_of_mem hr]
    have pair : ∀ a ∈ [r, q], ∀ b ∈ [r, q], a.overlaps b = true := by
      simp [overlap, Record.overlaps_self, Record.overlaps_comm q r]
    refine (Record.clusters_of_overlapping pair).trans ?_
    rw [List.foldlM_cons, merged]
    rfl
  · rw [simpleParts_with_record]
    exact h.foldlM_others

/-- A union without records absorbs a wrapper that does not change the branch of its tag. -/
theorem assembleUnion_with_wrapper (orderly : (Schema.union bs).Orderly)
    (distinct : (bs.map slot).Nodup) (none : ∀ b ∈ bs, b.record? = none)
    (wrapped : r.wrapped? = some w) (hb : b ∈ bs) (slot : b.slot = w.slot)
    (joined : joinPlain .strict j b w = .ok b) :
    assembleUnion j [.union bs, r.schema] = .ok (.union bs) := by
  have records : bs.filterMap record? = [] := List.filterMap_eq_nil_iff.2 none
  have keeps : KeepsBranches bs := .of_no_record distinct none
  obtain ⟨final, added, same⟩ := keeps.addClusters (j := j) orderly
  rw [records] at added
  cases added
  have held := get?_otherTable distinct hb (none b hb)
  rw [slot] at held
  refine assembleUnion_eq_ok.2 ⟨[], [r], otherTable bs, otherTable bs,
    plainBranch_with_record j bs r, ?_, ?_, ?_, same.symm⟩
  · rw [recordParts, compoundParts_with_record, List.filterMap_append, records]
    rfl
  · rw [simpleParts_with_record]
    exact keeps.foldlM_others
  · have placement : BranchTable.Placement (otherTable bs) [r] [w] :=
      .held wrapped (by rw [held]; rfl)
    rw [placement.addClusters_eq]
    exact (bind_pure _).trans
      (BranchTable.add_eq_self held (orderly.self.2.1 b hb) joined)

/--
Whether a record stays in a union: the record of the union is not changed by it, or the union
has no records and the branch of its tag is not changed by what it wraps.
-/
inductive StaysIn (j : Join) (bs : List Schema) (r : Record) : Prop where
  | record {R : Record} (mem : R.schema ∈ bs) (overlap : R.overlaps r = true)
    (merged : R.merge j r = .ok R) : StaysIn j bs r
  | wrapper {w b : Schema} (none : ∀ b ∈ bs, b.record? = none) (wrapped : r.wrapped? = some w)
    (hb : b ∈ bs) (slot : b.slot = w.slot) (joined : joinPlain .strict j b w = .ok b) :
    StaysIn j bs r

/-- Whether a record has all fields of another, with types that are left as they are by theirs. -/
def Record.TakesUp (j : Join) (R r : Record) : Prop :=
  ∀ f t, r.field? f = some t → ∃ s, R.field? f = some s ∧ j s t = .ok s

namespace Record.TakesUp
variable (h : TakesUp j R r)
include h

theorem overlaps : R.overlaps r = true := by
  apply overlaps_iff.2
  cases entries : r.fields with
  | nil => exact .inr (.inl rfl)
  | cons entry rest =>
    obtain ⟨f, t⟩ := entry
    have found : r.field? f = some t := by simp [field?, entries]
    obtain ⟨s, held, -⟩ := h f t found
    exact .inr (.inr ⟨f, by simp [held], by simp [found]⟩)

theorem merge_eq (hR : Ascending R.fields) (hr : Ascending r.fields) : R.merge j r = .ok R := by
  obtain ⟨M, merged⟩ : ∃ M, R.merge j r = .ok M := by
    refine exists_merge hR hr fun f s t hs ht => ?_
    obtain ⟨s', held, joined⟩ := h f t ht
    cases hs.symm.trans held
    exact ⟨s, joined⟩
  obtain ⟨name, asc, column⟩ := merge_spec merged hR hr
  rw [merged, eq_of_ascending asc hR name fun f => ?_]
  have joined := column f
  cases found : r.field? f with
  | none =>
    rw [found] at joined
    generalize R.field? f = s, M.field? f = u at joined ⊢
    cases joined <;> rfl
  | some t =>
    obtain ⟨s, held, absorbed⟩ := h f t found
    rw [held, found] at joined
    rw [held]
    generalize M.field? f = u at joined ⊢
    cases joined with
    | both joined' => exact congrArg some (Except.ok.inj (joined'.symm.trans absorbed))

end Record.TakesUp

/-- A record that another leaves as it is takes it up. -/
theorem Record.merge_eq_self_iff (hR : Ascending R.fields) (hr : Ascending r.fields) :
    R.overlaps r = true ∧ R.merge j r = .ok R ↔ R.TakesUp j r := by
  constructor
  · rintro ⟨-, merged⟩ f t found
    obtain ⟨-, -, column⟩ := merge_spec merged hR hr
    have joined := column f
    rw [found] at joined
    generalize R.field? f = s at joined ⊢
    cases joined with
    | both joined => exact ⟨_, rfl, joined⟩
  · exact fun h => ⟨h.overlaps, h.merge_eq hR hr⟩

/-- What stays in a union with a record is what this record takes up. -/
theorem Schema.KeepsBranches.staysIn_iff (h : KeepsBranches bs)
    (orderly : (Schema.union bs).Orderly) (hR : R.schema ∈ bs) (hr : Ascending r.fields) :
    StaysIn j bs r ↔ R.TakesUp j r := by
  have asc : Ascending R.fields := (orderly_branch orderly hR).1.self
  rw [← Record.merge_eq_self_iff asc hr]
  constructor
  · intro stays
    cases stays with
    | @record R' mem overlap merged =>
      cases (h.records_of_mem hR).symm.trans (h.records_of_mem mem)
      exact ⟨overlap, merged⟩
    | wrapper none => cases none _ hR
  · exact fun unchanged => .record hR unchanged.1 unchanged.2

theorem BranchTable.exists_joinPlain_of_add {table next : BranchTable}
    (step : table.add j c = .ok next) (held : Keyed.get? c.slot table = some b)
    (other : b.record? = none) :
    ∃ d, joinPlain .strict j b c = .ok d ∧ next = Keyed.put c.slot d table := by
  obtain ⟨d, filled, rfl⟩ := add_eq_ok.1 step
  rw [held] at filled
  cases filled_of_fill filled with
  | joined joined => exact ⟨d, joined, rfl⟩
  | records isRecord =>
    rw [other] at isRecord
    cases isRecord

theorem mem_of_get?_otherTable {k : Slot} (held : Keyed.get? k (otherTable bs) = some b) :
    b ∈ otherBranches bs ∧ b.slot = k := by
  obtain ⟨p, hp, eq⟩ := List.mem_map.1 (Keyed.mem_of_get?_eq_some held)
  cases eq
  exact ⟨hp, rfl⟩

/-- A record that makes a table longer is a branch itself. -/
theorem BranchTable.eq_append_of_longer {table next : BranchTable}
    (h : table.addClusters j [r] = .ok next) (longer : next.length = table.length + 1) :
    next = table ++ [(r.schema.slot, r.schema)] := by
  change table.add j (table.soleBranch r) = .ok next at h
  rcases eq_append_of_add h with ⟨unused, rfl⟩ | same
  · have sole : table.soleBranch r = r.schema := by
      apply soleBranch_eq_schema
      intro w wrapped used
      have held : (Keyed.get? w.slot table).isSome = true := by
        rw [← Option.ne_none_iff_isSome]
        intro free
        exact Keyed.get?_eq_none_iff.1 free used
      simp only [soleBranch, wrapped, held, if_true] at unused
      exact unused used
    rw [sole]
  · omega

theorem isCompound_of_mem_otherBranches (orderly : (Schema.union bs).Orderly)
    (hb : b ∈ otherBranches bs) : b.isCompound = false := by
  obtain ⟨hb, other⟩ := mem_otherBranches.1 hb
  exact isCompound_eq_false other (orderly.self.2.1 b hb)

/-- What a record that is wrapped itself wraps has a slot of its own, as the record has. -/
theorem Schema.KeepsBranches.nodup_slots_of_wrapped (keeps : KeepsBranches bs)
    (records : bs.filterMap record? = [R]) (wrapped : R.wrapped? = some w)
    (wrapped' : r.wrapped? = some R.schema) (named : R.FieldsNamed) (named' : r.FieldsNamed)
    (apart : R.overlaps r = false) :
    ((otherTable bs).map Prod.fst ++ [w, R.schema].map slot).Nodup := by
  have hR : R.schema ∈ bs := mem_filterMap_record?.1 (records ▸ List.mem_singleton_self R)
  have slots := keeps.slots_nodup
  rw [records] at slots
  obtain ⟨tag, wraps⟩ := Record.wraps_of_wrapped? wrapped
  obtain ⟨tag', wraps'⟩ := Record.wraps_of_wrapped? wrapped'
  have ne : R.schema.slot ≠ w.slot :=
    wraps'.slot_ne wraps named' named ((Record.overlaps_comm r R).trans apart) nofun
  have free := keeps.wrapped_slot_free hR wrapped
  rw [keys_otherTable]
  simp only [List.map_cons, List.map_nil, List.nodup_append, List.nodup_cons] at slots ⊢
  simp only [List.mem_cons, List.not_mem_nil, or_false] at slots ⊢
  refine ⟨slots.1, ⟨ne.symm, by simp⟩, fun k hk l hl same => ?_⟩
  rcases hl with rfl | rfl
  · exact free (same ▸ hk)
  · exact slots.2.2 k hk _ rfl same

section Returns
variable (hj : OrderlyJoin j) (keeps : KeepsBranches bs) (orderly : (Schema.union bs).Orderly)
  (orderly' : r.schema.Orderly) (h : assembleUnion j [.union bs, r.schema] = .ok (.union bs))
include hj keeps orderly orderly' h

/-- How the branches of a union that keeps them fill a table again, now with one more record. -/
theorem exists_table_of_assembleUnion :
    ∃ cs final, Record.clusters j (bs.filterMap record? ++ [r]) = .ok cs ∧
      (otherTable bs).addClusters j cs = .ok final ∧ bs.Perm (final.map Prod.snd) ∧
      final.length = (otherTable bs).length + (bs.filterMap record?).length := by
  obtain ⟨plain, cs, table, final, hplain, hcs, htable, hfinal, eq⟩ := assembleUnion_eq_ok.1 h
  cases hplain
  rw [simpleParts_with_record, keeps.foldlM_others] at htable
  cases htable
  have parts : recordParts [.union bs, r.schema] = bs.filterMap record? ++ [r] := by
    rw [recordParts, compoundParts_with_record, List.filterMap_append]
    rfl
  rw [parts] at hcs
  have orderlyTable : OrderlyJoin.OrderlyTable (otherTable bs) :=
    List.forall_mem_map.2 fun b hb => orderly_branch orderly (mem_otherBranches.1 hb).1
  have clusters := (hj.grows.clusters hcs fun q hq => by
    rcases List.mem_append.1 hq with hq | hq
    · exact (orderly_branch orderly (mem_filterMap_record?.1 hq)).1
    · cases List.mem_singleton.1 hq
      exact orderly').1
  have perm := (hj.orderly_addClusters orderlyTable clusters hfinal).perm eq.symm
  have count := perm.length_eq
  have whole := (otherBranches_append_perm bs).length_eq
  simp only [List.length_map, List.length_append] at count whole
  refine ⟨cs, final, hcs, hfinal, perm, ?_⟩
  rw [otherTable, List.length_map]
  omega

/-- A record that is absorbed by a union without records wraps one of its branches. -/
theorem staysIn_of_no_record (none : ∀ b ∈ bs, b.record? = none) : StaysIn j bs r := by
  obtain ⟨cs, final, hcs, hfinal, perm, count⟩ :=
    exists_table_of_assembleUnion hj keeps orderly orderly' h
  have records : bs.filterMap record? = [] := List.filterMap_eq_nil_iff.2 none
  rw [records] at hcs count
  cases hcs
  obtain ⟨ws, placement⟩ := BranchTable.exists_placement hfinal
  rw [placement.addClusters_eq] at hfinal
  cases placement with
  | record =>
    obtain ⟨next, step, done⟩ := foldlM_cons_eq_ok.1 hfinal
    cases done
    rcases BranchTable.eq_append_of_add step with ⟨-, rfl⟩ | -
    · simp at count
    · cases held : Keyed.get? r.schema.slot (otherTable bs) with
      | none =>
        rw [BranchTable.add_of_unused (Keyed.get?_eq_none_iff.1 held)] at step
        cases step
        simp at count
      | some b =>
        have hb := mem_otherBranches.1 (mem_of_get?_otherTable held).1
        obtain ⟨d, joined, -⟩ := BranchTable.exists_joinPlain_of_add step held hb.2
        cases (isCompound_of_joinPlain joined).2.1
  | @held _ w wrapped held =>
    obtain ⟨next, step, done⟩ := foldlM_cons_eq_ok.1 hfinal
    cases done
    obtain ⟨b, held⟩ := Option.isSome_iff_exists.1 held
    obtain ⟨mem, slot⟩ := mem_of_get?_otherTable held
    obtain ⟨hb, other⟩ := mem_otherBranches.1 mem
    obtain ⟨d, joined, rfl⟩ := BranchTable.exists_joinPlain_of_add step held other
    have hd : d ∈ bs := by
      apply perm.mem_iff.2
      have entry : (w.slot, d) ∈ Keyed.put w.slot d (otherTable bs) :=
        Keyed.mem_of_get?_eq_some (by simp)
      exact List.mem_map_of_mem entry
    have same : d = b := by
      apply List.inj_on_of_nodup_map keeps.distinct hd hb
      rw [slot_joinPlain joined slot, slot]
    exact .wrapper none wrapped hb slot (same ▸ joined)
  | wrapped several => exact absurd rfl several

section Record
variable (records : bs.filterMap record? = [R])
include records

/-- A record that is absorbed by a union with a record overlaps that record. -/
theorem overlaps_of_assembleUnion (named : R.FieldsNamed) (named' : r.FieldsNamed) :
    R.overlaps r = true := by
  by_contra apart
  have apart := eq_false_of_ne_true apart
  obtain ⟨cs, final, hcs, hfinal, perm, count⟩ :=
    exists_table_of_assembleUnion hj keeps orderly orderly' h
  have hR : R.schema ∈ bs := mem_filterMap_record?.1 (records ▸ List.mem_singleton_self R)
  rw [records] at hcs count
  have two : Record.clusters j [R, r] = .ok cs := hcs
  rw [clusters_of_apart apart] at two
  cases two
  have plain (b : Schema) (hb : b ∈ otherBranches bs) : b.isCompound = false :=
    isCompound_of_mem_otherBranches orderly hb
  have holds := BranchTable.holds_of_foldlM (widens_true j) (fun _ _ => trivial) plain
    keeps.foldlM_others
  obtain ⟨ws, placement, holds⟩ := holds.addClusters (widens_true j) plain (fun _ _ => trivial)
    (fun _ _ _ _ => trivial) (forall_mem_pair.2 ⟨named, named'⟩) (List.pairwise_pair.2 apart)
    hfinal
  rw [placement.addClusters_eq] at hfinal
  obtain ⟨w, v, rfl, hw, hv⟩ : ∃ w v, ws = [w, v] ∧ R.wrapped? = some w ∧
      r.wrapped? = some v := by
    cases placement with
    | wrapped _ wrapped =>
      cases wrapped with
      | cons hw rest =>
        cases rest with
        | cons hv rest =>
          cases rest
          exact ⟨_, _, rfl, hw, hv⟩
  -- the table still holds the record, which must be what `r` wraps
  have own : v = R.schema := by
    obtain ⟨⟨k, c⟩, hmem, eq⟩ := List.mem_map.1 (perm.mem_iff.1 hR)
    have eq : c = R.schema := eq
    subst eq
    have source := holds.compound k _ (holds.mem_iff.1 hmem) rfl
    rcases List.mem_append.1 source with source | source
    · cases (mem_otherBranches.1 source).2
    · rcases (by simpa using source : R.schema = w ∨ R.schema = v) with same | same
      · have lower := height_lt_of_wrapped? hw
        rw [← same] at lower
        omega
      · exact same.symm
  subst own
  -- so there would be one branch more than before
  have distinct := keeps.nodup_slots_of_wrapped records hw hv named named' apart
  rw [BranchTable.foldlM_add_of_unused distinct] at hfinal
  cases hfinal
  simp at count

/-- A record that is absorbed by a union with a record is absorbed by that record. -/
theorem staysIn_of_record (overlap : R.overlaps r = true) : StaysIn j bs r := by
  obtain ⟨cs, final, hcs, hfinal, perm, count⟩ :=
    exists_table_of_assembleUnion hj keeps orderly orderly' h
  have hR : R.schema ∈ bs := mem_filterMap_record?.1 (records ▸ List.mem_singleton_self R)
  have whole := otherBranches_append_perm bs
  rw [records] at hcs count whole
  have pair : ∀ a ∈ [R, r], ∀ b ∈ [R, r], a.overlaps b = true := by
    simp [overlap, Record.overlaps_self, Record.overlaps_comm r R]
  have single : Record.clusters j [R, r] = .ok cs := hcs
  rw [Record.clusters_of_overlapping pair, List.foldlM_cons] at single
  cases merged : R.merge j r with
  | error reason => rw [merged] at single; cases single
  | ok M =>
    rw [merged] at single
    cases single
    rw [BranchTable.eq_append_of_longer hfinal count] at perm
    have values : (otherTable bs ++ [(M.schema.slot, M.schema)]).map Prod.snd =
        otherBranches bs ++ [M.schema] := by
      simp [otherTable, Function.comp_def]
    rw [values] at perm
    have own : [R.schema].Perm [M.schema] := (List.perm_append_left_iff _).1 (whole.trans perm)
    have same : M = R := by
      apply Record.schema_injective
      simpa using own.symm
    exact .record hR overlap (same ▸ merged)

end Record

end Returns

/--
A union that keeps its branches absorbs the records that stay in it and no others.
-/
theorem Schema.KeepsBranches.assembleUnion_record_iff (hj : OrderlyJoin j)
    (keeps : KeepsBranches bs) (orderly : (Schema.union bs).Orderly) (orderly' : r.schema.Orderly)
    (named : ∀ R : Record, R.schema ∈ bs → R.FieldsNamed) (named' : r.FieldsNamed) :
    SchemaInference.assembleUnion j [.union bs, r.schema] = .ok (.union bs) ↔ StaysIn j bs r := by
  constructor
  · intro h
    rcases keeps.records_eq with none | ⟨R, single⟩
    · exact staysIn_of_no_record hj keeps orderly orderly' h (List.filterMap_eq_nil_iff.1 none)
    · have hR : R.schema ∈ bs := mem_filterMap_record?.1 (single ▸ List.mem_singleton_self R)
      exact staysIn_of_record hj keeps orderly orderly' h single
        (overlaps_of_assembleUnion hj keeps orderly orderly' h single (named R hR) named')
  · intro stays
    cases stays with
    | record mem overlap merged => exact keeps.assembleUnion_record orderly mem overlap merged
    | wrapper none wrapped hb slot joined =>
      exact assembleUnion_with_wrapper orderly keeps.distinct none wrapped hb slot joined

end Candidate

end SchemaInference
