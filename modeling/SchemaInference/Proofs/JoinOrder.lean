import Mathlib.Logic.Function.Basic
import SchemaInference.Proofs.Assembly
import SchemaInference.Proofs.Covers

/-!
# Joins do not depend on the order of a collection

A collection is aligned if its plain types agree and the shared fields of its records do.
The join of such a collection is found from its members alone: plain types have one least
upper bound, records one finest cover, and wrappers of clusters go to slots of their own,
so the order in which they fill a table does not matter.
-/

namespace SchemaInference

open Schema

namespace BranchTable
variable {j : Join} {table : BranchTable} {a b : Schema}

/-- What a table holds in its slots. -/
def view (table : BranchTable) : Slot → Option Schema := fun k => Keyed.get? k table

/-- Adds a branch to what slots hold. -/
def place (j : Join) (held : Slot → Option Schema) (added : Schema) :
    Option (Slot → Option Schema) :=
  (fill j added (held added.slot)).toOption.map fun b => Function.update held added.slot (some b)

theorem view_put (k : Slot) (b : Schema) :
    view (Keyed.put k b table) = Function.update table.view k (some b) := by
  funext l
  rw [view, Keyed.get?_put]
  by_cases h : l = k
  · subst h
    simp
  · rw [if_neg h, Function.update_of_ne h]
    rfl

theorem view_add (table : BranchTable) (added : Schema) :
    (table.add j added).toOption.map view = place j table.view added := by
  rw [add_eq, place]
  change _ = (fill j added (Keyed.get? added.slot table)).toOption.map _
  cases fill j added (Keyed.get? added.slot table) with
  | error reason => rfl
  | ok c => exact congrArg some (view_put added.slot c)

theorem exists_primitive_of_slot (h : a.slot = .number) : ∃ k, a = .primitive k := by
  cases a with
  | primitive k => exact ⟨k, rfl⟩
  | _ => cases h

/-- Branches of different slots may be added in either order. -/
theorem place_comm_of_ne (held : Slot → Option Schema) (ne : a.slot ≠ b.slot) :
    ((place j held a).bind fun h => place j h b) = (place j held b).bind fun h => place j h a := by
  have first {c : Schema} : Function.update held a.slot (some c) b.slot = held b.slot :=
    Function.update_of_ne ne.symm _ _
  have second {c : Schema} : Function.update held b.slot (some c) a.slot = held a.slot :=
    Function.update_of_ne ne _ _
  simp only [place, Option.bind_map, Function.comp_def, first, second]
  cases fill j a (held a.slot) with
  | error reason => cases fill j b (held b.slot) <;> rfl
  | ok c =>
    cases fill j b (held b.slot) with
    | error reason => rfl
    | ok d => exact congrArg some (Function.update_comm ne (some c) (some d) held)

theorem fill_primitive (k l : Kind) : (fill j (.primitive l) (some (.primitive k))).toOption =
    (k.join? .strict l).map primitive := by
  simp only [fill, joinPlain]
  cases k.join? .strict l <;> rfl

/-- Primitives of one slot may be added in either order. -/
theorem place_comm_of_primitive (held : Slot → Option Schema) {k l : Kind}
    (same : (primitive k).slot = (primitive l).slot) :
    ((place j held (.primitive k)).bind fun h => place j h (.primitive l)) =
      (place j held (.primitive l)).bind fun h => place j h (.primitive k) := by
  have twice {k l : Kind} {s : Slot} (hk : (primitive k).slot = s) (hl : (primitive l).slot = s) :
      ((place j held (.primitive k)).bind fun h => place j h (.primitive l)) =
        ((fill j (.primitive k) (held s)).toOption.bind fun c =>
          (fill j (.primitive l) (some c)).toOption).map fun c =>
            Function.update held s (some c) := by
    simp only [place, hk, hl]
    cases fill j (.primitive k) (held s) with
    | error reason => rfl
    | ok c => simp [Except.toOption]
  rw [twice same rfl, twice rfl same]
  refine congrArg _ ?_
  cases held (primitive l).slot with
  | none =>
    change (fill j (.primitive l) _).toOption = (fill j (.primitive k) _).toOption
    rw [fill_primitive, fill_primitive, Kind.join?_comm]
  | some present =>
    cases present with
    | primitive m =>
      have later (n : Option Kind) (l : Kind) : ((n.map primitive).bind fun c =>
          (fill j (.primitive l) (some c)).toOption) =
            (n.bind fun n => n.join? .strict l).map primitive := by
        cases n with
        | none => rfl
        | some n => exact fill_primitive n l
      rw [fill_primitive, fill_primitive, later, later, Kind.join?_right_comm]
    | _ => rfl

/-- Whether the wrappers of two records may be added in either order. -/
theorem place_comm_of_wraps {r q : Record} {tag tag' : Text} (held : Slot → Option Schema)
    (h : r.Wraps tag a) (h' : q.Wraps tag' b) (named : r.FieldsNamed) (named' : q.FieldsNamed)
    (apart : r.overlaps q = false) :
    ((place j held a).bind fun h => place j h b) = (place j held b).bind fun h => place j h a := by
  by_cases same : a.slot = b.slot
  · have number : a.slot = .number := by
      by_contra ne
      exact h.slot_ne h' named named' apart ne same
    obtain ⟨k, rfl⟩ := exists_primitive_of_slot number
    obtain ⟨l, rfl⟩ := exists_primitive_of_slot (same ▸ number)
    exact place_comm_of_primitive held same
  · exact place_comm_of_ne held same

/-- Wrapped branches of records that do not overlap may be added in any order. -/
theorem view_addWrapped_perm {rs qs : List Record} (perm : rs.Perm qs)
    (named : ∀ r ∈ rs, r.FieldsNamed)
    (apart : ∀ r ∈ rs, ∀ q ∈ rs, r ≠ q → r.overlaps q = false) :
    (rs.foldlM (addWrapped j) table).toOption.map view =
      (qs.foldlM (addWrapped j) table).toOption.map view := by
  have views (rs : List Record) (table : BranchTable) :
      (rs.foldlM (addWrapped j) table).toOption.map view =
        rs.foldlM (fun h (r : Record) => r.wrapped?.bind (place j h)) table.view := by
    induction rs generalizing table with
    | nil => rfl
    | cons r rest ih =>
      rw [List.foldlM_cons, List.foldlM_cons, addWrapped]
      cases r.wrapped? with
      | none => rfl
      | some b =>
        change Option.map view (table.add j b >>= _).toOption = (place j table.view b).bind _
        rw [← view_add]
        cases table.add j b with
        | error reason => rfl
        | ok next => exact ih next
  rw [views, views]
  refine foldlM_perm perm (fun r hr q hq held => ?_) table.view
  by_cases heq : r = q
  · rw [heq]
  cases wrapped : r.wrapped? with
  | none => cases q.wrapped? <;> simp
  | some a =>
    cases wrapped' : q.wrapped? with
    | none => simp
    | some b =>
      obtain ⟨tag, wraps⟩ := Record.wraps_of_wrapped? wrapped
      obtain ⟨tag', wraps'⟩ := Record.wraps_of_wrapped? wrapped'
      exact place_comm_of_wraps held wraps wraps' (named r hr) (named q hq) (apart r hr q hq heq)

theorem foldlM_of_addClusters {rs : List Record} (several : rs.length ≠ 1) :
    table.addClusters j rs = rs.foldlM (addWrapped j) table := by
  match rs with
  | [] => rfl
  | [r] => exact absurd rfl several
  | _ :: _ :: _ => rfl

theorem view_addClusters_perm {rs qs : List Record} (perm : rs.Perm qs)
    (named : ∀ r ∈ rs, r.FieldsNamed)
    (apart : ∀ r ∈ rs, ∀ q ∈ rs, r ≠ q → r.overlaps q = false) :
    (table.addClusters j rs).toOption.map view = (table.addClusters j qs).toOption.map view := by
  by_cases single : rs.length = 1
  · obtain ⟨r, rfl⟩ := List.length_eq_one_iff.1 single
    rw [List.singleton_perm.1 perm]
  · rw [foldlM_of_addClusters single, foldlM_of_addClusters (perm.length_eq ▸ single)]
    exact view_addWrapped_perm perm named apart

theorem Holds.schema_eq {P P' : Schema → Prop} {R R' : Schema → Schema → Prop}
    {sources sources' : List Schema} {table' : BranchTable} (h : Holds P R sources table)
    (h' : Holds P' R' sources' table') (same : table.view = table'.view) :
    table.schema = table'.schema := by
  have perm := (Keyed.perm_of_get?_eq h.distinct h'.distinct (congrFun same)).map Prod.snd
  have labels : ((table.map Prod.snd).map branchLabel).Nodup := by
    have slots : ((table.map Prod.snd).map Schema.slot).Nodup := by
      rw [h.map_slot]
      exact h.distinct
    refine List.pairwise_map.2 ((List.pairwise_map.1 slots).imp fun ne heq => ne ?_)
    exact slot_eq_of_branchLabel_eq heq
  have union := unionOf_perm perm h.isUnion_eq_false labels
  unfold BranchTable.schema
  generalize table.map Prod.snd = bs, table'.map Prod.snd = cs at perm union
  match bs, cs with
  | [], cs => rw [List.nil_perm.1 perm]
  | [b], cs => rw [List.singleton_perm.1 perm]
  | b :: b' :: bs, c :: c' :: cs => exact union
  | _ :: _ :: _, [] | _ :: _ :: _, [_] => have := perm.length_eq; simp at this

end BranchTable

namespace Schema

/-- Types that are no unions, of which the plain ones agree and the records match. -/
structure Aligned (level : Nat) (ts : List Schema) : Prop where
  canonical : ∀ t ∈ ts, t.Canonical
  low : ∀ t ∈ ts, t.height ≤ level
  flat : ∀ t ∈ ts, t.isUnion = false
  plain : ∀ s ∈ ts, ∀ t ∈ ts, s.isCompound = false → t.isCompound = false → Agree True s t
  records : Record.Matching level (ts.filterMap record?)

theorem Aligned.of_forall_mem {level : Nat} {ts us : List Schema} (h : Aligned level ts)
    (sub : ∀ u ∈ us, u ∈ ts) : Aligned level us where
  canonical u hu := h.canonical u (sub u hu)
  low u hu := h.low u (sub u hu)
  flat u hu := h.flat u (sub u hu)
  plain s hs t ht := h.plain s (sub s hs) t (sub t ht)
  records := by
    refine h.records.of_forall_mem fun r hr => ?_
    exact mem_filterMap_record?.2 (sub r.schema (mem_filterMap_record?.1 hr))

end Schema

section Collections
variable {j : Join} {level : Nat} {ts us : List Schema} {c : Schema}

theorem joinList_perm (hj : Joins j level) (aligned : Aligned level ts)
    (plain : ∀ t ∈ ts, t.isCompound = false) (full : ∀ t ∈ ts, t ≠ null) (perm : ts.Perm us)
    (h : joinList (joinPlain .strict j) ts = .ok c) :
    joinList (joinPlain .strict j) us = .ok c := by
  have mem : ∀ u ∈ us, u ∈ ts := fun u => perm.mem_iff.2
  have agree : ∀ s ∈ ts, ∀ t ∈ ts, Agree True s t := fun s hs t ht =>
    aligned.plain s hs t ht (plain s hs) (plain t ht)
  have bound := hj.isJoinOf_joinList aligned.canonical aligned.low agree h
  obtain ⟨d, joined⟩ := hj.exists_joinList (fun u hu => aligned.canonical u (mem u hu))
    (fun u hu => aligned.low u (mem u hu)) (fun u hu => plain u (mem u hu))
    (fun u hu => full u (mem u hu)) fun s hs t ht =>
      (agree s (mem s hs) t (mem t ht)).mergeable_of_le (bound.upper s (mem s hs))
        (bound.upper t (mem t ht))
  have bound' := hj.isJoinOf_joinList (fun u hu => aligned.canonical u (mem u hu))
    (fun u hu => aligned.low u (mem u hu))
    (fun s hs t ht => agree s (mem s hs) t (mem t ht)) joined
  rw [joined, bound.unique (bound'.congr fun t => perm.mem_iff.symm)]

theorem plainBranch_perm (hj : Joins j level) (aligned : Aligned level ts) (perm : ts.Perm us)
    {branch : List Schema} (h : plainBranch j ts = .ok branch) :
    plainBranch j us = .ok branch := by
  have parts : (plainParts ts).Perm (plainParts us) := perm.filter _
  unfold plainBranch at h ⊢
  split at h
  · next none =>
    rw [none] at parts
    rw [List.nil_perm.1 parts]
    exact h
  · next some =>
    split
    · next none =>
      rw [none] at parts
      exact absurd (List.perm_nil.1 parts) some
    · cases joined : joinList (joinPlain .strict j) (plainParts ts) with
      | error reason => rw [joined] at h; cases h
      | ok b =>
        have aligned' := aligned.of_forall_mem fun t ht => (mem_plainParts.1 ht).1
        rw [joinList_perm hj aligned' (fun t ht => (mem_plainParts.1 ht).2.1)
          (fun t ht => (mem_plainParts.1 ht).2.2) parts joined]
        rw [joined] at h
        exact h

/-- What clusters add to a table does not depend on their order, nor does its type. -/
theorem schema_addClusters_perm {table final : BranchTable} {sources : List Schema}
    {cs ds : List Record}
    (holds : BranchTable.Holds (fun _ => True) (fun _ _ => True) sources table)
    (plain : ∀ s ∈ sources, s.isCompound = false) (named : ∀ r ∈ cs, r.FieldsNamed)
    (apart : ∀ r ∈ cs, ∀ q ∈ cs, r ≠ q → r.overlaps q = false) (distinct : cs.Nodup)
    (perm : cs.Perm ds) (h : table.addClusters j cs = .ok final) :
    ∃ final', table.addClusters j ds = .ok final' ∧ final'.schema = final.schema := by
  have views : (table.addClusters j cs).toOption.map BranchTable.view =
      (table.addClusters j ds).toOption.map BranchTable.view :=
    BranchTable.view_addClusters_perm perm named apart
  rw [h] at views
  have total {rs : List Record} {final : BranchTable} (sub : ∀ r ∈ rs, r ∈ cs) (nodup : rs.Nodup)
      (h : table.addClusters j rs = .ok final) :
      ∃ bs, BranchTable.Holds (fun _ => True) (fun _ _ => True) (sources ++ bs) final := by
    have pairwise : rs.Pairwise fun r q => r.overlaps q = false :=
      nodup.imp_of_mem fun {r q} hr hq ne => apart r (sub r hr) q (sub q hq) ne
    obtain ⟨bs, _, total⟩ := holds.addClusters (widens_true j) plain (fun _ _ => trivial)
      (fun _ _ _ _ => trivial) (fun r hr => named r (sub r hr)) pairwise h
    exact ⟨bs, total⟩
  cases h' : table.addClusters j ds with
  | error reason => rw [h'] at views; cases views
  | ok final' =>
    rw [h'] at views
    obtain ⟨_, holds₁⟩ := total (fun _ => id) distinct h
    obtain ⟨_, holds₂⟩ := total (fun r => perm.mem_iff.2) (perm.nodup_iff.1 distinct) h'
    exact ⟨final', rfl, holds₂.schema_eq holds₁ (Option.some.inj views).symm⟩

theorem assembleUnion_perm (hj : Joins j level) (aligned : Aligned level ts) (perm : ts.Perm us)
    (h : assembleUnion j ts = .ok c) : assembleUnion j us = .ok c := by
  obtain ⟨plain, cs, table, final, hplain, hcs, htable, hfinal, rfl⟩ := assembleUnion_eq_ok.1 h
  have flat : ∀ t ∈ us, t.isUnion = false := fun t ht => aligned.flat t (perm.mem_iff.2 ht)
  rw [recordParts_of_flat aligned.flat] at hcs
  rw [simpleParts_of_flat aligned.flat] at htable
  obtain ⟨ds, hds, same⟩ := aligned.records.clusters_perm hj (perm.filterMap _) hcs
  obtain ⟨cover, isCluster⟩ := aligned.records.covers hj hcs
  have simple := isCompound_of_mem_plainBranch hplain
  have holds := BranchTable.holds_of_foldlM (widens_true j) (fun _ _ => trivial) simple htable
  obtain ⟨final', hfinal', heq⟩ := schema_addClusters_perm holds simple
    (fun r hr => (isCluster r hr).fieldsNamed) (fun r hr q hq => cover.overlaps_eq_false hr hq)
    cover.nodup same hfinal
  refine assembleUnion_eq_ok.2 ⟨plain, ds, table, final', plainBranch_perm hj aligned perm hplain,
    ?_, ?_, hfinal', heq.symm⟩
  · rw [recordParts_of_flat flat]
    exact hds
  · rw [simpleParts_of_flat flat]
    exact htable

/-- Records that are reordered among types have one cluster only if they had one before. -/
theorem clusters_eq_single_of_perm (hj : Joins j level) (aligned : Aligned level ts)
    (perm : ts.Perm us) {rs : List Record} {r : Record} (records : ts = rs.map Record.schema)
    (single : Record.clusters j rs = .ok [r]) :
    ∃ qs : List Record, us = qs.map Record.schema ∧ Record.clusters j qs = .ok [r] := by
  obtain ⟨qs, rfl⟩ : ∃ qs : List Record, us = qs.map Record.schema := by
    refine exists_eq_map fun t ht => ?_
    obtain ⟨r, _, rfl⟩ := List.mem_map.1 (records ▸ perm.mem_iff.2 ht)
    exact ⟨r, rfl⟩
  have matching := aligned.records
  have perm := perm.filterMap record?
  rw [records, filterMap_record?_schema] at matching perm
  rw [filterMap_record?_schema] at perm
  obtain ⟨ds, hds, same⟩ := matching.clusters_perm hj perm single
  rw [← List.singleton_perm.1 same] at hds
  exact ⟨qs, rfl, hds⟩

/-- The join of a collection depends on the set of its types only. -/
theorem joinAllWith_congr (hj : Joins j level) (aligned : Aligned level ts)
    (same : ∀ t, t ∈ ts ↔ t ∈ us) (h : Strict.joinAllWith j ts = .ok c) :
    Strict.joinAllWith j us = .ok c := by
  have perm : (Strict.candidates ts).Perm (Strict.candidates us) := by
    refine (List.perm_ext_iff_of_nodup (Strict.nodup_candidates ts)
      (Strict.nodup_candidates us)).2 fun t => ?_
    rw [Strict.mem_candidates, Strict.mem_candidates, same]
  have aligned : Aligned level (Strict.candidates ts) :=
    aligned.of_forall_mem fun t ht => (Strict.mem_candidates.1 ht).1
  apply JoinedAll.joinAllWith
  cases joinedAll_of_joinAllWith h with
  | plain plain joined =>
    refine .plain (fun t ht => plain t (perm.mem_iff.2 ht)) ?_
    exact joinList_perm hj aligned plain (fun t ht => (Strict.mem_candidates.1 ht).2) perm joined
  | @record rs r isRecords clusters eq =>
    obtain ⟨qs, heq, single⟩ := clusters_eq_single_of_perm hj aligned perm isRecords clusters
    exact .record heq single eq
  | union compound several assembled =>
    obtain ⟨t, ht, isCompound⟩ := compound
    refine .union ⟨t, perm.mem_iff.1 ht, isCompound⟩ (fun qs heq r single => ?_)
      (assembleUnion_perm hj aligned perm assembled)
    have aligned' : Aligned level (Strict.candidates us) :=
      aligned.of_forall_mem fun t => perm.mem_iff.2
    obtain ⟨rs, isRecords, single⟩ := clusters_eq_single_of_perm hj aligned' perm.symm heq single
    exact several rs isRecords r single

end Collections

end SchemaInference
