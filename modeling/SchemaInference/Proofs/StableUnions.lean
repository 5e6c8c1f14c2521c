import SchemaInference.Proofs.Heights
import SchemaInference.Proofs.JoinOrder
import SchemaInference.Proofs.UnionWidths

/-!
# Unions that are put together again

To put the branches of a union together again is to fill a table with them once more.  No
step makes more branches of those it is given, so the union comes back only if every branch
fills a slot of its own and every record stays a record: these are the unions that keep their
branches.
-/

namespace SchemaInference

open Schema

namespace Schema
variable {bs : List Schema}

/-- The branches of a union that are no records. -/
def otherBranches (bs : List Schema) : List Schema := bs.filter fun b => b.record?.isNone

theorem mem_otherBranches {b : Schema} : b ∈ otherBranches bs ↔ b ∈ bs ∧ b.record? = none := by
  simp [otherBranches]

theorem map_schema_filterMap_record? (bs : List Schema) :
    (bs.filterMap record?).map Record.schema = bs.filter fun b => b.record?.isSome := by
  induction bs with
  | nil => rfl
  | cons b rest ih =>
    cases found : b.record? with
    | none => simp [found, ih]
    | some r => simp [found, ih, schema_of_record? found]

/-- The branches of a union are its records and the others. -/
theorem otherBranches_append_perm (bs : List Schema) :
    (otherBranches bs ++ (bs.filterMap record?).map Record.schema).Perm bs := by
  rw [map_schema_filterMap_record?]
  simpa [otherBranches] using
    List.filter_append_perm (fun b : Schema => b.record?.isNone) bs

theorem countP_record?_eq_length (bs : List Schema) :
    (bs.countP fun b => b.record?.isSome) = (bs.filterMap record?).length := by
  rw [List.countP_eq_length_filter, ← map_schema_filterMap_record?, List.length_map]

theorem height_lt_of_wrapped? {r : Record} {w : Schema} (wrapped : r.wrapped? = some w) :
    w.height < r.schema.height := by
  obtain ⟨tag, wraps⟩ := Record.wraps_of_wrapped? wrapped
  cases wraps <;> simp [Record.schema, Schema.height, fieldsHeight]

theorem KeepsBranches.of_no_record (distinct : (bs.map slot).Nodup)
    (none : ∀ b ∈ bs, b.record? = none) : KeepsBranches bs := by
  refine ⟨distinct, ?_, fun b hb r found => ?_⟩
  · rw [countP_record?_eq_length, List.filterMap_eq_nil_iff.2 none]
    exact Nat.zero_le 1
  · cases (none b hb).symm.trans found

end Schema

namespace Record
variable {j : Join} {r merged : Record} {present others rs cs : List Record}

/-- A record that is merged with clusters leaves fewer of them, and otherwise is as it was. -/
theorem length_lt_of_absorb (h : absorb j r present = .ok (others, merged)) :
    others.length < present.length ∨ others = present ∧ merged = r := by
  induction present generalizing r others with
  | nil =>
    cases h
    exact .inr ⟨rfl, rfl⟩
  | cons c rest ih =>
    simp only [absorb] at h
    split at h
    · split at h
      · rcases ih h with fewer | ⟨rfl, -⟩
        · exact .inl (Nat.lt_succ_of_lt fewer)
        · exact .inl (Nat.lt_succ_self _)
      · cases h
    · split at h
      · next left m absorbed =>
        cases h
        rcases ih absorbed with fewer | ⟨rfl, rfl⟩
        · exact .inl (Nat.succ_lt_succ fewer)
        · exact .inr ⟨rfl, rfl⟩
      · cases h

/-- Clusters are fewer than the records unless they are the records. -/
theorem length_clusters_lt (h : clusters j rs = .ok cs) : cs.length < rs.length ∨ cs = rs := by
  refine foldlM_invariant (fun seen cs => cs.length < seen.length ∨ cs = seen) h (.inr rfl) ?_
  intro seen r rest present added _ count step
  obtain ⟨others, merged, absorbed, rfl⟩ := addToClusters_eq_ok.1 step
  have fewer := length_lt_of_absorb absorbed
  simp only [List.length_append, List.length_singleton]
  rcases count with fewer' | rfl
  · left
    rcases fewer with fewer | ⟨rfl, rfl⟩ <;> omega
  · rcases fewer with fewer | ⟨rfl, rfl⟩
    · left
      omega
    · exact .inr rfl

end Record

namespace BranchTable
variable {j : Join} {table next : BranchTable} {b : Schema} {parts ws : List Schema}
  {rs : List Record}

/-- A branch is put at the end of a table, or joined with a branch that is there. -/
theorem eq_append_of_add (h : table.add j b = .ok next) :
    b.slot ∉ table.map Prod.fst ∧ next = table ++ [(b.slot, b)] ∨ next.length = table.length := by
  by_cases used : b.slot ∈ table.map Prod.fst
  · right
    obtain ⟨present, held⟩ : ∃ present, Keyed.get? b.slot table = some present := by
      apply Option.ne_none_iff_exists'.1
      intro free
      exact Keyed.get?_eq_none_iff.1 free used
    obtain ⟨front, back, rfl, replaced⟩ := Keyed.exists_put_of_used held
    obtain ⟨c, -, rfl⟩ := add_eq_ok.1 h
    simp [replaced]
  · left
    rw [add_of_unused used] at h
    cases h
    exact ⟨used, rfl⟩

/-- A table does not get longer than the branches that are added, and as long only by all. -/
theorem eq_append_of_foldlM_add (distinct : (table.map Prod.fst).Nodup)
    (h : parts.foldlM (add j) table = .ok next) :
    next.length < table.length + parts.length ∨
      (table.map Prod.fst ++ parts.map slot).Nodup ∧
        next = table ++ parts.map fun p => (p.slot, p) := by
  induction parts generalizing table with
  | nil =>
    cases h
    exact .inr ⟨by simpa using distinct, by simp⟩
  | cons p rest ih =>
    obtain ⟨mid, step, later⟩ := foldlM_cons_eq_ok.1 h
    have keys : (mid.map Prod.fst).Nodup := by
      obtain ⟨c, -, rfl⟩ := add_eq_ok.1 step
      exact Keyed.nodup_keys_put distinct
    rcases ih keys later with fewer | ⟨apart, rfl⟩
    · left
      rcases eq_append_of_add step with ⟨-, rfl⟩ | same
      · simpa [Nat.add_assoc, Nat.add_comm 1] using fewer
      · rw [List.length_cons]
        omega
    · rcases eq_append_of_add step with ⟨-, rfl⟩ | same
      · right
        exact ⟨by simpa using apart, by simp⟩
      · left
        simp [same]

/-- Adding clusters is adding the branches for which they stand. -/
theorem Placement.addClusters_eq (placement : Placement table rs ws) :
    table.addClusters j rs = ws.foldlM (add j) table := by
  cases placement with
  | @record r free =>
    have sole : table.soleBranch r = r.schema := by
      apply soleBranch_eq_schema
      intro w wrapped
      exact Keyed.get?_eq_none_iff.1 (free w wrapped)
    rw [List.foldlM_cons, addClusters, sole]
    exact (bind_pure _).symm
  | @held r b wrapped held =>
    have sole : table.soleBranch r = b := by
      simp only [soleBranch, wrapped, held, if_true]
    rw [List.foldlM_cons, addClusters, sole]
    exact (bind_pure _).symm
  | wrapped several wrapped =>
    rw [foldlM_of_addClusters several]
    clear several
    induction wrapped generalizing table with
    | nil => rfl
    | cons found _ ih =>
      rw [List.foldlM_cons, List.foldlM_cons, addWrapped, found]
      exact congrArg _ (funext fun next => ih)

theorem exists_placement (h : table.addClusters j rs = .ok next) :
    ∃ ws, Placement table rs ws := by
  have several (count : rs.length ≠ 1) (h : rs.foldlM (addWrapped j) table = .ok next) :
      ∃ ws, Placement table rs ws := by
    suffices wrapped : ∃ ws, List.Forall₂ (fun r b => r.wrapped? = some b) rs ws by
      obtain ⟨ws, wrapped⟩ := wrapped
      exact ⟨ws, .wrapped count wrapped⟩
    refine foldlM_invariant (fun seen _ => ∃ ws,
      List.Forall₂ (fun r b => r.wrapped? = some b) seen ws) h ⟨[], .nil⟩ ?_
    intro seen r rest t t' _ sofar step
    obtain ⟨ws, sofar⟩ := sofar
    cases found : r.wrapped? with
    | none => rw [addWrapped, found] at step; cases step
    | some w => exact ⟨ws ++ [w], List.rel_append sofar (.cons found .nil)⟩
  rcases rs with _ | ⟨r, _ | ⟨q, rs⟩⟩
  · exact several (by simp) h
  · by_cases held : ∃ w, r.wrapped? = some w ∧ (Keyed.get? w.slot table).isSome
    · obtain ⟨w, wrapped, held⟩ := held
      exact ⟨[w], .held wrapped held⟩
    · refine ⟨[r.schema], .record fun w wrapped => Option.not_isSome_iff_eq_none.1 fun some => ?_⟩
      exact held ⟨w, wrapped, some⟩
  · exact several (by simp) h

theorem Placement.length_eq (placement : Placement table rs ws) : ws.length = rs.length := by
  cases placement with
  | record => rfl
  | held => rfl
  | wrapped _ wrapped => exact wrapped.length_eq.symm

end BranchTable

section Again
variable {j : Join} {bs : List Schema}

theorem recordParts_union (bs : List Schema) : recordParts [.union bs] = bs.filterMap record? := by
  have parts : compoundParts [.union bs] = bs := List.append_nil bs
  rw [recordParts, parts]

theorem simpleParts_union (bs : List Schema) : simpleParts [.union bs] [] = otherBranches bs := by
  have parts : compoundParts [.union bs] = bs := List.append_nil bs
  rw [simpleParts, parts, List.append_nil, otherBranches]

/-- The table of the branches of a union that are no records. -/
def otherTable (bs : List Schema) : BranchTable := (otherBranches bs).map fun b => (b.slot, b)

theorem keys_otherTable (bs : List Schema) :
    (otherTable bs).map Prod.fst = (otherBranches bs).map slot := by
  rw [otherTable, List.map_map]
  rfl

theorem foldlM_otherBranches (distinct : ((otherBranches bs).map slot).Nodup) :
    (otherBranches bs).foldlM (BranchTable.add j) [] = .ok (otherTable bs) :=
  BranchTable.foldlM_add_of_unused distinct

namespace Schema.KeepsBranches
variable (h : KeepsBranches bs)
include h

theorem slots_nodup :
    ((otherBranches bs).map slot ++ ((bs.filterMap record?).map Record.schema).map slot).Nodup := by
  rw [← List.map_append]
  exact ((otherBranches_append_perm bs).map slot).nodup_iff.2 h.distinct

theorem foldlM_others :
    (otherBranches bs).foldlM (BranchTable.add j) [] = .ok (otherTable bs) :=
  foldlM_otherBranches (List.nodup_append.1 h.slots_nodup).1

theorem records_eq : bs.filterMap record? = [] ∨ ∃ r, bs.filterMap record? = [r] := by
  have sole := h.sole
  rw [countP_record?_eq_length] at sole
  rcases Nat.le_one_iff_eq_zero_or_eq_one.1 sole with none | one
  · exact .inl (List.eq_nil_of_length_eq_zero none)
  · exact .inr (List.length_eq_one_iff.1 one)

/-- What the record of a union wraps goes to a slot that no other branch holds. -/
theorem wrapped_slot_free {r : Record} {w : Schema} (hr : r.schema ∈ bs)
    (wrapped : r.wrapped? = some w) : w.slot ∉ (otherBranches bs).map slot := by
  intro used
  obtain ⟨p, hp, same⟩ := List.mem_map.1 used
  obtain ⟨hp, other⟩ := mem_otherBranches.1 hp
  exact h.closed _ hr r rfl w wrapped p hp other same

/-- The records of a union that keeps its branches stand for themselves beside the others. -/
theorem placement : BranchTable.Placement (otherTable bs) (bs.filterMap record?)
    ((bs.filterMap record?).map Record.schema) := by
  rcases h.records_eq with none | ⟨r, single⟩
  · rw [none]
    exact .wrapped (by simp) .nil
  · have mem : r.schema ∈ bs := mem_filterMap_record?.1 (by simp [single])
    rw [single]
    refine .record fun w wrapped => Keyed.get?_eq_none_iff.2 ?_
    rw [keys_otherTable]
    exact h.wrapped_slot_free mem wrapped

/-- The records of a union that keeps its branches come back as they are. -/
theorem addClusters (orderly : (Schema.union bs).Orderly) :
    ∃ final, (otherTable bs).addClusters j (bs.filterMap record?) = .ok final ∧
      final.schema = .union bs := by
  obtain ⟨several, flat, ascend⟩ := orderly.self
  let records := bs.filterMap record?
  refine ⟨otherTable bs ++ (records.map Record.schema).map fun b => (b.slot, b), ?_, ?_⟩
  · rw [h.placement.addClusters_eq]
    apply BranchTable.foldlM_add_of_unused
    rw [keys_otherTable]
    exact h.slots_nodup
  · refine BranchTable.schema_of_perm several flat ascend h.distinct ?_
    have values : (otherTable bs ++ (records.map Record.schema).map fun b => (b.slot, b)).map
        Prod.snd = otherBranches bs ++ records.map Record.schema := by
      simp [otherTable, Function.comp_def]
    rw [values]
    exact otherBranches_append_perm bs

end Schema.KeepsBranches

/-- Types whose parts come to what a union that keeps its branches makes of its own give it. -/
theorem Schema.KeepsBranches.assembleUnion_of_parts (h : KeepsBranches bs)
    (orderly : (Schema.union bs).Orderly) {ts plain : List Schema}
    (branch : plainBranch j ts = .ok plain)
    (clusters : Record.clusters j (recordParts ts) = .ok (bs.filterMap record?))
    (others : (simpleParts ts plain).foldlM (BranchTable.add j) [] = .ok (otherTable bs)) :
    SchemaInference.assembleUnion j ts = .ok (.union bs) := by
  obtain ⟨final, added, same⟩ := h.addClusters (j := j) orderly
  exact assembleUnion_eq_ok.2 ⟨plain, _, _, final, branch, clusters, others, added, same.symm⟩

theorem Schema.KeepsBranches.clusters (h : KeepsBranches bs) :
    Record.clusters j (bs.filterMap record?) = .ok (bs.filterMap record?) := by
  rcases h.records_eq with none | ⟨r, single⟩
  · rw [none]
    rfl
  · rw [single]
    rfl

/-- A union that keeps its branches comes back when it is put together again. -/
theorem Schema.KeepsBranches.assembleUnion (h : KeepsBranches bs)
    (orderly : (Schema.union bs).Orderly) :
    SchemaInference.assembleUnion j [.union bs] = .ok (.union bs) := by
  apply h.assembleUnion_of_parts orderly (rfl : plainBranch j [.union bs] = .ok [])
  · rw [recordParts_union]
    exact h.clusters
  · rw [simpleParts_union]
    exact h.foldlM_others

/-- The branches of a table that is a union are the branches of the union. -/
theorem OrderlyJoin.OrderlyTable.perm {table : BranchTable} (h : OrderlyJoin.OrderlyTable table)
    (eq : table.schema = .union bs) : bs.Perm (table.map Prod.snd) := by
  have flat : ∀ b ∈ table.map Prod.snd, b.isUnion = false :=
    List.forall_mem_map.2 fun e he => (h e he).2
  unfold BranchTable.schema at eq
  split at eq
  · cases eq
  · next b single =>
    have := flat b (single ▸ List.mem_cons_self)
    rw [eq] at this
    cases this
  · obtain ⟨cs, heq, perm, -⟩ := unionOf_of_flat flat
    cases heq.symm.trans eq
    exact perm

/-- Several records are not what they wrap, which is lower. -/
theorem not_perm_of_wrapped {rs : List Record} {ws : List Schema} (full : rs ≠ [])
    (wrapped : List.Forall₂ (fun r b => r.wrapped? = some b) rs ws) :
    ¬ws.Perm (rs.map Record.schema) := by
  intro perm
  obtain ⟨r, hr⟩ := List.exists_mem_of_ne_nil rs full
  have positive : 0 < branchesHeight (rs.map Record.schema) := by
    apply Nat.lt_of_lt_of_le _ (height_le_branchesHeight (List.mem_map_of_mem hr))
    simp [Record.schema, Schema.height]
  have lower : branchesHeight ws < branchesHeight (rs.map Record.schema) := by
    apply branchesHeight_lt positive
    intro w hw
    obtain ⟨q, hq, found⟩ := exists_left_of_mem wrapped hw
    exact Nat.lt_of_lt_of_le (height_lt_of_wrapped? found)
      (height_le_branchesHeight (List.mem_map_of_mem hq))
  have same : branchesHeight (rs.map Record.schema) ≤ branchesHeight ws := by
    apply branchesHeight_le_iff.2
    intro t ht
    exact height_le_branchesHeight (perm.mem_iff.2 ht)
  omega

/--
If a union comes back, no step has joined two of its branches: all of them have filled slots of
their own, those for which the records stand as well as the others.
-/
theorem exists_placement_of_assembleUnion (hj : OrderlyJoin j)
    (orderly : (Schema.union bs).Orderly) (h : assembleUnion j [.union bs] = .ok (.union bs)) :
    ∃ ws, BranchTable.Placement (otherTable bs) (bs.filterMap record?) ws ∧
      ((otherBranches bs).map slot ++ ws.map slot).Nodup ∧
      ws.Perm ((bs.filterMap record?).map Record.schema) := by
  obtain ⟨plain, cs, table, final, hplain, hcs, htable, hfinal, eq⟩ := assembleUnion_eq_ok.1 h
  cases hplain
  rw [recordParts_union] at hcs
  rw [simpleParts_union] at htable
  have branches : ∀ b ∈ bs, b.Orderly ∧ b.isUnion = false := fun b hb =>
    orderly_branch orderly hb
  have start : OrderlyJoin.OrderlyTable [] := by simp [OrderlyJoin.OrderlyTable]
  have orderlyTable := hj.orderly_foldlM start
    (fun b hb => branches b (mem_otherBranches.1 hb).1) htable
  have clusters := (hj.grows.clusters hcs fun r hr =>
    (branches _ (mem_filterMap_record?.1 hr)).1).1
  have perm := (hj.orderly_addClusters orderlyTable clusters hfinal).perm eq.symm
  obtain ⟨ws, placement⟩ := BranchTable.exists_placement hfinal
  rw [placement.addClusters_eq] at hfinal
  have total : (otherBranches bs ++ ws).foldlM (BranchTable.add j) [] = .ok final := by
    rw [List.foldlM_append, htable]
    exact hfinal
  have whole := otherBranches_append_perm bs
  -- no step makes more branches of what it is given, and all of them are there in the end
  have count := perm.length_eq
  have count' := whole.length_eq
  have count'' := placement.length_eq
  simp only [List.length_map, List.length_append] at count count'
  have fewer := Record.length_clusters_lt hcs
  rcases BranchTable.eq_append_of_foldlM_add (by simp) total with short | ⟨distinct, eq'⟩
  · simp only [List.length_append, List.length_nil] at short
    rcases fewer with fewer | rfl <;> omega
  have values : final.map Prod.snd = otherBranches bs ++ ws := by
    rw [eq']
    simp [Function.comp_def]
  have slots : ((otherBranches bs).map slot ++ ws.map slot).Nodup := by
    simpa using distinct
  rw [values] at perm
  have same : ws.Perm ((bs.filterMap record?).map Record.schema) :=
    (List.perm_append_left_iff _).1 (perm.symm.trans whole.symm)
  have records : cs = bs.filterMap record? := by
    apply fewer.resolve_left
    have := same.length_eq
    rw [List.length_map] at this
    omega
  rw [foldlM_otherBranches (List.nodup_append.1 slots).1] at htable
  cases htable
  exact ⟨ws, records ▸ placement, slots, same⟩

/-- A union that comes back when it is put together again keeps its branches. -/
theorem keepsBranches_of_assembleUnion (hj : OrderlyJoin j) (orderly : (Schema.union bs).Orderly)
    (h : assembleUnion j [.union bs] = .ok (.union bs)) : KeepsBranches bs := by
  obtain ⟨ws, placement, slots, same⟩ := exists_placement_of_assembleUnion hj orderly h
  have distinct : (bs.map slot).Nodup := by
    have perm := (same.append_left (otherBranches bs)).trans (otherBranches_append_perm bs)
    rw [← List.map_append] at slots
    exact (perm.map slot).nodup_iff.1 slots
  have kept (sole : (bs.filterMap record?).length ≤ 1)
      (free : ∀ r ∈ bs.filterMap record?, ∀ w, r.wrapped? = some w →
        Keyed.get? w.slot (otherTable bs) = none) : KeepsBranches bs := by
    refine ⟨distinct, countP_record?_eq_length bs ▸ sole, ?_⟩
    intro b hb r found w wrapped p hp other
    have mem : r ∈ bs.filterMap record? := List.mem_filterMap.2 ⟨b, hb, found⟩
    have unused := Keyed.get?_eq_none_iff.1 (free r mem w wrapped)
    rw [keys_otherTable] at unused
    intro eq
    exact unused (eq ▸ List.mem_map_of_mem (mem_otherBranches.2 ⟨hp, other⟩))
  generalize bs.filterMap record? = rs at placement same kept
  cases placement with
  | record free =>
    apply kept (Nat.le_refl 1)
    intro r hr
    cases List.mem_singleton.1 hr
    exact free
  | @held r w wrapped held =>
    -- the branch that the record wraps would be joined with the one that holds its slot
    have used : w.slot ∈ (otherBranches bs).map slot := by
      by_contra unused
      rw [← keys_otherTable] at unused
      rw [Keyed.get?_eq_none_iff.2 unused] at held
      cases held
    exact absurd rfl ((List.nodup_append.1 slots).2.2 _ used _ List.mem_cons_self)
  | wrapped several wrapped =>
    cases rs with
    | nil => exact kept (Nat.zero_le 1) (by simp)
    | cons r rest => exact absurd same (not_perm_of_wrapped (List.cons_ne_nil r rest) wrapped)

/-- A union comes back when it is put together again exactly if it keeps its branches. -/
theorem assembleUnion_union_iff (hj : OrderlyJoin j) (orderly : (Schema.union bs).Orderly) :
    assembleUnion j [.union bs] = .ok (.union bs) ↔ KeepsBranches bs :=
  ⟨keepsBranches_of_assembleUnion hj orderly, fun h => h.assembleUnion orderly⟩

end Again

end SchemaInference
