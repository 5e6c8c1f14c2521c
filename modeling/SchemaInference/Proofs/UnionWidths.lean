import SchemaInference.Proofs.KeptUnions
import SchemaInference.Proofs.Orderly

/-!
# Strict joins of schemas of one shape

The strict join of two schemas that differ in the width of numbers only widens them, as long
as their unions keep their branches.  The branches of the first union fill a table, those of
the second come to the slots of the branches of their shape, and what the table holds in the
end are the widened branches.
-/

namespace SchemaInference

open Schema

namespace BranchTable
variable {j : Join} {table front : BranchTable}

theorem add_of_unused {b : Schema} (unused : b.slot ∉ table.map Prod.fst) :
    table.add j b = .ok (table ++ [(b.slot, b)]) := by
  rw [add_eq, Keyed.get?_eq_none_iff.2 unused, fill, Except.map, Keyed.put_of_unused unused]

theorem foldlM_add_of_unused {parts : List Schema}
    (distinct : (table.map Prod.fst ++ parts.map slot).Nodup) :
    parts.foldlM (add j) table = .ok (table ++ parts.map fun p => (p.slot, p)) := by
  induction parts generalizing table with
  | nil => simp [pure, Except.pure]
  | cons p rest ih =>
    have unused : p.slot ∉ table.map Prod.fst := by
      intro used
      exact (List.nodup_append.1 distinct).2.2 _ used _ List.mem_cons_self rfl
    have later : ((table ++ [(p.slot, p)]).map Prod.fst ++ rest.map slot).Nodup := by
      simpa using distinct
    rw [List.foldlM_cons, add_of_unused unused]
    simpa [bind, Except.bind] using ih later

/-- Branches that come to the branches of their slots are joined with these. -/
theorem foldlM_add_of_used {ps : List (Schema × Schema)} {joined : Schema × Schema → Schema}
    (filled : ∀ p ∈ ps, p.2.slot = p.1.slot ∧ fill j p.2 (some p.1) = .ok (joined p))
    (distinct : (front.map Prod.fst ++ ps.map fun p => p.1.slot).Nodup) :
    (ps.map Prod.snd).foldlM (add j) (front ++ ps.map fun p => (p.1.slot, p.1)) =
      .ok (front ++ ps.map fun p => (p.1.slot, joined p)) := by
  induction ps generalizing front with
  | nil => rfl
  | cons p rest ih =>
    obtain ⟨⟨slot, fills⟩, filled⟩ := List.forall_mem_cons.1 filled
    have unused : p.1.slot ∉ front.map Prod.fst := by
      intro used
      exact (List.nodup_append.1 distinct).2.2 _ used _ List.mem_cons_self rfl
    have step (back : BranchTable) : BranchTable.add j (front ++ (p.1.slot, p.1) :: back) p.2 =
        .ok (front ++ [(p.1.slot, joined p)] ++ back) := by
      rw [add_eq, slot, Keyed.get?_append_of_unused unused, Keyed.get?, if_pos rfl, fills,
        Except.map, Keyed.put_append_of_unused unused, Keyed.put, if_pos rfl]
      simp
    have later : ((front ++ [(p.1.slot, joined p)]).map Prod.fst ++
        rest.map fun p => p.1.slot).Nodup := by
      simpa using distinct
    rw [List.map_cons, List.map_cons, List.foldlM_cons, step]
    simpa [bind, Except.bind] using ih filled later

/-- Branches of distinct slots are put in their slots, and those of a second pass join them. -/
theorem foldlM_add_pairs {ps : List (Schema × Schema)} {joined : Schema × Schema → Schema}
    (filled : ∀ p ∈ ps, p.2.slot = p.1.slot ∧ fill j p.2 (some p.1) = .ok (joined p))
    (distinct : (ps.map fun p => p.1.slot).Nodup) :
    (ps.map Prod.fst ++ ps.map Prod.snd).foldlM (add j) [] =
      .ok (ps.map fun p => (p.1.slot, joined p)) := by
  have first : (ps.map Prod.fst).foldlM (add j) [] =
      .ok ([] ++ (ps.map Prod.fst).map fun b => (b.slot, b)) :=
    foldlM_add_of_unused (by simpa [Function.comp_def] using distinct)
  have second : (ps.map Prod.snd).foldlM (add j) ([] ++ ps.map fun p => (p.1.slot, p.1)) =
      .ok ([] ++ ps.map fun p => (p.1.slot, joined p)) :=
    foldlM_add_of_used filled distinct
  rw [List.foldlM_append, first, List.map_map]
  exact second

theorem fill_of_joinPlain {present added b : Schema}
    (joined : joinPlain .strict j present added = .ok b) (flat : b.isUnion = false) :
    fill j added (some present) = .ok b := by
  have settled : joinedBranch present added (joinPlain .strict j present added) = .ok b := by
    rw [joined]
    cases b with
    | union => cases flat
    | _ => rfl
  cases present <;> cases added <;> first | exact settled | cases joined

/-- A record that wraps no branch of a table is a branch itself. -/
theorem soleBranch_eq_schema {r : Record}
    (free : ∀ w, r.wrapped? = some w → w.slot ∉ table.map Prod.fst) :
    table.soleBranch r = r.schema := by
  unfold soleBranch
  split
  · next w wrapped =>
    rw [if_neg]
    rw [Keyed.get?_eq_none_iff.2 (free w wrapped)]
    exact Bool.false_ne_true
  · rfl

/-- A table of branches in any order is the union of these branches. -/
theorem schema_of_perm {bs : List Schema} (several : 2 ≤ bs.length)
    (flat : ∀ b ∈ bs, b.isUnion = false) (ascend : BranchesAscend bs)
    (distinct : (bs.map slot).Nodup) (perm : (table.map Prod.snd).Perm bs) :
    table.schema = .union bs := by
  have count := perm.length_eq
  unfold schema
  split
  · next none => rw [none] at count; simp at count; omega
  · next b one => rw [one] at count; simp at count; omega
  · have labels : (bs.map branchLabel).Nodup := by
      refine List.pairwise_map.2 ((List.pairwise_map.1 distinct).imp fun ne same => ?_)
      exact ne (slot_eq_of_branchLabel_eq same)
    exact unionOf_eq perm (fun m hm => flat m (perm.mem_iff.1 hm))
      ((perm.map branchLabel).nodup_iff.2 labels) ascend

end BranchTable

theorem Kind.join?_eq_widest {k l : Kind} (same : k.withoutWidth = l.withoutWidth) :
    k.join? .strict l = some (k.widest l) := by
  revert same
  cases k <;> cases l <;> decide

/-- A join that widens orderly schemas of one shape whose height is below a level. -/
def WidensBelow (j : Join) (level : Nat) : Prop :=
  ∀ {s t : Schema}, s.Orderly → t.Orderly → s.height < level →
    s.withoutWidth = t.withoutWidth → KeepsUnions s t → j s t = .ok (widen s t)

namespace WidensBelow
variable {j : Join} {level : Nat} (hj : WidensBelow j level)

section Parts
variable {s t : Schema} {r q : Record}

include hj in
theorem joinPlain (hs : s.Orderly) (ht : t.Orderly) (low : s.height ≤ level)
    (same : s.withoutWidth = t.withoutWidth) (keeps : KeepsUnions s t)
    (plain : s.isCompound = false) :
    SchemaInference.joinPlain .strict j s t = .ok (widen s t) := by
  cases sameForm same with
  | primitives kinds => simp only [SchemaInference.joinPlain, Kind.join?_eq_widest kinds, widen]
  | @arrays _ s t items =>
    have joined : j s t = .ok (widen s t) :=
      hj hs.items ht.items low items (keeps.part? .items rfl rfl)
    simp only [SchemaInference.joinPlain, joined, widen, if_true, Except.map]
  | _ => cases plain

include hj in
theorem merge (hr : r.schema.Orderly) (hq : q.schema.Orderly) (low : r.schema.height ≤ level)
    (same : r.schema.withoutWidth = q.schema.withoutWidth)
    (keeps : KeepsUnions r.schema q.schema) :
    r.merge j q = .ok ⟨r.name, widenFields r.fields q.fields⟩ := by
  obtain ⟨ascr, partsr⟩ := orderly_record.1 hr
  obtain ⟨ascq, partsq⟩ := orderly_record.1 hq
  have fields := (Schema.record.inj same).2
  have joined (f : Text) (s t : Schema) (hs : r.field? f = some s) (ht : q.field? f = some t) :
      j s t = .ok (widen s t) := by
    have lower := Record.height_field?_lt hs
    have parts : s.withoutWidth = t.withoutWidth :=
      withoutWidth_part? same (.field f) hs ht
    exact hj (partsr f s hs) (partsq f t ht) (by omega) parts
      (keeps.part? (.field f) hs ht)
  obtain ⟨c, merged⟩ := Record.exists_merge ascr ascq fun f s t hs ht => ⟨_, joined f s t hs ht⟩
  obtain ⟨name, ascc, field⟩ := Record.merge_spec merged ascr ascq
  have shape : fieldsWithoutWidth (widenFields r.fields q.fields) = fieldsWithoutWidth r.fields :=
    (Schema.record.inj (withoutWidth_widen same)).2
  have ascw : Ascending (widenFields r.fields q.fields) := by
    have canonical := canonical_of_withoutWidth_eq hr.canonical (withoutWidth_widen same).symm
    exact (canonical_record.1 canonical).1
  obtain ⟨n, cs⟩ := c
  rw [merged, ← name]
  refine congrArg (fun fs => Except.ok (Record.mk n fs)) (ascc.ext ascw fun f => ?_)
  -- a field of one record is a field of both, whose types are widened
  rw [lookup_widenFields fields]
  have both : (r.field? f).map withoutWidth = (q.field? f).map withoutWidth := by
    have columns := congrArg (List.lookup f) fields
    rwa [lookup_fieldsWithoutWidth, lookup_fieldsWithoutWidth] at columns
  have column := field f
  have joined := joined f
  change (Record.mk n cs).field? f = (r.field? f).bind fun s => (q.field? f).map fun t => widen s t
  generalize r.field? f = left, q.field? f = right, (Record.mk n cs).field? f = found
    at both column joined ⊢
  cases column with
  | absent => rfl
  | left => cases both
  | right => cases both
  | @both s t u inner =>
    cases inner.symm.trans (joined s t rfl rfl)
    rfl

theorem overlaps_pair (same : r.schema.withoutWidth = q.schema.withoutWidth) :
    ∀ a ∈ [r, q], ∀ b ∈ [r, q], a.overlaps b = true := by
  have overlap : r.overlaps q = true := by
    rw [Record.overlaps_iff]
    have fields := (Schema.record.inj same).2
    cases hr : r.fields with
    | nil => exact .inl rfl
    | cons e rest =>
      rw [hr] at fields
      obtain ⟨t, others, hq, _⟩ := fieldsWithoutWidth_cons_eq fields
      exact .inr (.inr ⟨e.1, by simp [Record.field?, hr], by simp [Record.field?, hq]⟩)
  simp only [forall_mem_pair]
  exact ⟨⟨r.overlaps_self, overlap⟩, (q.overlaps_comm r).trans overlap, q.overlaps_self⟩

end Parts

/-- The branches of two unions of one shape, pair by pair, where the wider branches are kept. -/
structure Paired (level : Nat) (ps : List (Schema × Schema)) : Prop where
  left : (union (ps.map Prod.fst)).Orderly
  right : (union (ps.map Prod.snd)).Orderly
  low : ∀ p ∈ ps, p.1.height ≤ level
  same : ∀ p ∈ ps, p.1.withoutWidth = p.2.withoutWidth
  keeps : ∀ p ∈ ps, KeepsUnions p.1 p.2
  kept : KeepsBranches (ps.map fun p => widen p.1 p.2)

section Labels
variable {s t : Schema}

theorem branchLabel_widen (same : s.withoutWidth = t.withoutWidth) :
    (widen s t).branchLabel = s.branchLabel ∨ (widen s t).branchLabel = t.branchLabel := by
  cases sameForm same with
  | primitives kinds =>
    rcases (Kind.widest_spec kinds).1 with wide | wide
    · exact .inl (by rw [widen, wide])
    · exact .inr (by rw [widen, wide])
  | arrays n => cases n <;> exact .inl rfl
  | _ => exact .inl rfl

/-- Branches of one shape have one label unless they are numbers. -/
theorem branchLabel_eq (same : s.withoutWidth = t.withoutWidth) (other : s.slot ≠ .number) :
    s.branchLabel = t.branchLabel := by
  cases sameForm same with
  | @primitives k l kinds =>
    revert kinds other
    cases k <;> cases l <;> decide
  | arrays n => cases n <;> rfl
  | _ => rfl

theorem slot_widen (same : s.withoutWidth = t.withoutWidth) : (widen s t).slot = s.slot :=
  slot_eq_of_withoutWidth_eq (withoutWidth_widen same)

theorem compoundParts_unions (ss ts : List Schema) :
    compoundParts [.union ss, .union ts] = ss ++ ts := by
  change ss ++ (ts ++ []) = ss ++ ts
  rw [List.append_nil]

theorem isUnion_widen (s t : Schema) : (widen s t).isUnion = s.isUnion := by
  cases s <;> cases t <;> rfl

end Labels

namespace Paired
variable {ps : List (Schema × Schema)} (h : Paired level ps)
include h

theorem distinct : (ps.map fun p => p.1.slot).Nodup := by
  have slots := h.kept.distinct
  rw [List.map_map] at slots
  rwa [List.map_congr_left fun p hp => (slot_widen (h.same p hp)).symm]

/-- Of two branches at most one is a number, so a change of its label leaves them in order. -/
theorem ascend : BranchesAscend (ps.map fun p => widen p.1 p.2) := by
  have left := List.pairwise_map.1 h.left.self.2.2
  have right := List.pairwise_map.1 h.right.self.2.2
  have apart := List.pairwise_map.1 h.distinct
  refine List.pairwise_map.2 ((left.and (right.and apart)).imp_of_mem ?_)
  rintro p q hp hq ⟨left, right, apart⟩
  have own {a : Schema × Schema} (ha : a ∈ ps) (other : a.1.slot ≠ .number) :
      a.1.branchLabel = a.2.branchLabel ∧ a.1.branchLabel = (widen a.1 a.2).branchLabel :=
    ⟨branchLabel_eq (h.same a ha) other,
      branchLabel_eq (withoutWidth_widen (h.same a ha)).symm other⟩
  by_cases number : p.1.slot = .number
  · obtain ⟨sides, wide⟩ := own hq fun other => apart (number.trans other.symm)
    rw [← wide]
    rcases branchLabel_widen (h.same p hp) with label | label
    · rw [label]
      exact left
    · rw [label, sides]
      exact right
  · obtain ⟨sides, wide⟩ := own hp number
    rw [← wide]
    rcases branchLabel_widen (h.same q hq) with label | label
    · rw [label]
      exact left
    · rw [label, sides]
      exact right

include hj in
/-- The branches of both unions that are no records fill a table with the wider branches. -/
theorem foldlM_simple {plain : List (Schema × Schema)}
    (sub : ∀ p ∈ plain, p ∈ ps ∧ p.1.record? = none)
    (distinct : (plain.map fun p => p.1.slot).Nodup) :
    (plain.map Prod.fst ++ plain.map Prod.snd).foldlM (BranchTable.add j) [] =
      .ok (plain.map fun p => (p.1.slot, widen p.1 p.2)) := by
  refine BranchTable.foldlM_add_pairs (fun p hp => ?_) distinct
  obtain ⟨hp, simple⟩ := sub p hp
  refine ⟨(slot_eq_of_withoutWidth_eq (h.same p hp)).symm, ?_⟩
  have flat : p.1.isUnion = false := h.left.self.2.1 p.1 (List.mem_map_of_mem hp)
  have plain : p.1.isCompound = false := by
    cases hs : p.1 with
    | record n fs => rw [hs] at simple; cases simple
    | union bs => rw [hs] at flat; cases flat
    | _ => rfl
  have joined := hj.joinPlain (h.left.branch (List.mem_map_of_mem hp))
    (h.right.branch (List.mem_map_of_mem hp)) (h.low p hp) (h.same p hp) (h.keeps p hp) plain
  exact BranchTable.fill_of_joinPlain joined (by rw [isUnion_widen, flat])

/-- The wider record wraps none of the other branches. -/
theorem not_wrapped {plain : List (Schema × Schema)}
    (sub : ∀ p ∈ plain, p ∈ ps ∧ p.1.record? = none) {p : Schema × Schema} (hp : p ∈ ps)
    {m : Record} (hm : m.schema = widen p.1 p.2) {w : Schema} (wrapped : m.wrapped? = some w) :
    w.slot ∉ plain.map fun p => p.1.slot := by
  intro used
  obtain ⟨a, ha, slot⟩ := List.mem_map.1 used
  obtain ⟨mem, simple⟩ := sub a ha
  have same := withoutWidth_widen (h.same a mem)
  refine h.kept.closed m.schema ?_ m rfl w wrapped (widen a.1 a.2) (List.mem_map_of_mem mem) ?_ ?_
  · rw [hm]
    exact List.mem_map_of_mem hp
  · rw [← Option.not_isSome_iff_eq_none, isSome_record?_eq same, simple]
    exact Bool.false_ne_true
  · rw [slot_widen (h.same a mem), slot]

include hj in
/-- The record among the branches becomes the wider record, and it stays a branch. -/
theorem addClusters {plain records : List (Schema × Schema)}
    (perm : (plain ++ records).Perm ps) (sub : ∀ p ∈ plain, p ∈ ps ∧ p.1.record? = none)
    (isRecord : ∀ p ∈ records, p.1.record?.isSome) (sole : records.length ≤ 1) :
    ∃ clusters, Record.clusters j ((records.map Prod.fst).filterMap record? ++
        (records.map Prod.snd).filterMap record?) = .ok clusters ∧
      BranchTable.addClusters j (plain.map fun p => (p.1.slot, widen p.1 p.2)) clusters =
        .ok ((plain ++ records).map fun p => (p.1.slot, widen p.1 p.2)) := by
  match records with
  | [] => exact ⟨[], rfl, by simp [BranchTable.addClusters, pure, Except.pure]⟩
  | [(s, t)] =>
    have hp : (s, t) ∈ ps := perm.mem_iff.1 (by simp)
    have same : s.withoutWidth = t.withoutWidth := h.same _ hp
    obtain ⟨r, hr⟩ := Option.isSome_iff_exists.1 (isRecord (s, t) List.mem_cons_self)
    obtain ⟨q, hq⟩ := Option.isSome_iff_exists.1
      ((isSome_record?_eq same).symm.trans (isRecord (s, t) List.mem_cons_self))
    obtain rfl := schema_of_record? hr
    obtain rfl := schema_of_record? hq
    have orderr : r.schema.Orderly := h.left.branch (List.mem_map_of_mem hp)
    have orderq : q.schema.Orderly := h.right.branch (List.mem_map_of_mem hp)
    have merged := hj.merge orderr orderq (h.low _ hp) same (h.keeps _ hp)
    refine ⟨[⟨r.name, widenFields r.fields q.fields⟩], ?_, ?_⟩
    · refine (Record.clusters_of_overlapping (overlaps_pair same)).trans ?_
      rw [List.foldlM_cons, merged]
      rfl
    · let wider : Record := ⟨r.name, widenFields r.fields q.fields⟩
      let table : BranchTable := plain.map fun p => (p.1.slot, widen p.1 p.2)
      have keys : table.map Prod.fst = plain.map fun p => p.1.slot := by
        rw [List.map_map]
        rfl
      have kept : table.soleBranch wider = wider.schema := by
        refine BranchTable.soleBranch_eq_schema fun w wrapped => ?_
        rw [keys]
        exact h.not_wrapped sub hp rfl wrapped
      have unused : wider.schema.slot ∉ table.map Prod.fst := by
        rw [keys]
        intro used
        have distinct := (perm.map fun p => p.1.slot).nodup_iff.2 h.distinct
        rw [List.map_append] at distinct
        exact (List.nodup_append.1 distinct).2.2 _ used _ List.mem_cons_self rfl
      change BranchTable.add j table (table.soleBranch wider) = _
      rw [kept, BranchTable.add_of_unused unused, List.map_append]
      rfl
  | _ :: _ :: _ => simp at sole

theorem isSome_record?_snd {p : Schema × Schema} (hp : p ∈ ps) :
    p.2.record?.isSome = p.1.record?.isSome :=
  (isSome_record?_eq (h.same p hp)).symm

theorem recordParts_eq : recordParts [.union (ps.map Prod.fst), .union (ps.map Prod.snd)] =
    ((ps.filter fun p => p.1.record?.isSome).map Prod.fst).filterMap record? ++
      ((ps.filter fun p => p.1.record?.isSome).map Prod.snd).filterMap record? := by
  have side {side : Schema × Schema → Schema}
      (same : ∀ p ∈ ps, (side p).record?.isSome = p.1.record?.isSome) :
      (ps.map side).filterMap record? =
        ((ps.filter fun p => p.1.record?.isSome).map side).filterMap record? := by
    rw [List.filterMap_map, List.filterMap_map, List.filterMap_filter]
    refine List.filterMap_congr fun p hp => ?_
    rw [← same p hp, Function.comp_apply]
    cases (side p).record? <;> rfl
  rw [← side fun _ _ => rfl, ← side fun p hp => h.isSome_record?_snd hp]
  rw [recordParts, compoundParts_unions, List.filterMap_append]

theorem simpleParts_eq : simpleParts [.union (ps.map Prod.fst), .union (ps.map Prod.snd)] [] =
    (ps.filter fun p => p.1.record?.isNone).map Prod.fst ++
      (ps.filter fun p => p.1.record?.isNone).map Prod.snd := by
  have side {side : Schema × Schema → Schema}
      (same : ∀ p ∈ ps, (side p).record?.isSome = p.1.record?.isSome) :
      (ps.map side).filter (fun b => b.record?.isNone) =
        (ps.filter fun p => p.1.record?.isNone).map side := by
    rw [List.filter_map]
    refine congrArg _ (List.filter_congr fun p hp => ?_)
    rw [Function.comp_apply, ← Option.not_isSome, same p hp, Option.not_isSome]
  rw [← side fun _ _ => rfl, ← side fun p hp => h.isSome_record?_snd hp]
  rw [simpleParts, compoundParts_unions, List.filter_append, List.append_nil]

theorem length_records : (ps.filter fun p => p.1.record?.isSome).length ≤ 1 := by
  have sole := h.kept.sole
  rw [List.countP_map, List.countP_eq_length_filter] at sole
  rwa [List.filter_congr fun p hp =>
    (isSome_record?_eq (withoutWidth_widen (h.same p hp))).symm]

include hj in
/-- Putting the branches of two unions together gives the union of the wider branches. -/
theorem assembleUnion : SchemaInference.assembleUnion j [.union (ps.map Prod.fst),
    .union (ps.map Prod.snd)] = .ok (.union (ps.map fun p => widen p.1 p.2)) := by
  let plain := ps.filter fun p => p.1.record?.isNone
  let records := ps.filter fun p => p.1.record?.isSome
  have perm : (plain ++ records).Perm ps := by
    simpa using List.filter_append_perm (fun p : Schema × Schema => p.1.record?.isNone) ps
  have sub (p : Schema × Schema) (hp : p ∈ plain) : p ∈ ps ∧ p.1.record? = none := by
    obtain ⟨mem, simple⟩ := List.mem_filter.1 hp
    exact ⟨mem, Option.isNone_iff_eq_none.1 simple⟩
  have distinct := (perm.map fun p => p.1.slot).nodup_iff.2 h.distinct
  rw [List.map_append] at distinct
  have simple := h.foldlM_simple hj sub (List.nodup_append.1 distinct).1
  obtain ⟨clusters, hclusters, final⟩ := h.addClusters hj perm sub
    (fun p hp => (List.mem_filter.1 hp).2) h.length_records
  refine assembleUnion_eq_ok.2 ⟨[], clusters, _, _, rfl, ?_, ?_, final, ?_⟩
  · rw [h.recordParts_eq]
    exact hclusters
  · rw [h.simpleParts_eq]
    exact simple
  · refine (BranchTable.schema_of_perm ?_ ?_ h.ascend h.kept.distinct ?_).symm
    · simpa using h.left.self.1
    · refine List.forall_mem_map.2 fun p hp => ?_
      rw [isUnion_widen]
      exact h.left.self.2.1 p.1 (List.mem_map_of_mem hp)
    · rw [List.map_map]
      exact perm.map _

end Paired

section Step
variable {s t : Schema} {ss ts : List Schema} {r q : Record}

theorem ne_null_of_withoutWidth_eq (same : s.withoutWidth = t.withoutWidth) (ne : s ≠ t) :
    s ≠ null ∧ t ≠ null := by
  constructor
  · rintro rfl
    exact ne (eq_null_of_withoutWidth_eq same).symm
  · rintro rfl
    exact ne (eq_null_of_withoutWidth_eq same.symm)

theorem paired (hs : (union ss).Orderly) (ht : (union ts).Orderly)
    (low : (union ss).height ≤ level) (same : (union ss).withoutWidth = (union ts).withoutWidth)
    (keeps : KeepsUnions (.union ss) (.union ts)) (ne : ss ≠ ts) :
    ∃ ps, ss = ps.map Prod.fst ∧ ts = ps.map Prod.snd ∧
      widenBranches ss ts = (ps.map fun p => widen p.1 p.2) ∧ Paired level ps := by
  have same' := map_withoutWidth_eq same
  have count : ss.length = ts.length := by simpa using congrArg List.length same'
  have left : (ss.zip ts).map Prod.fst = ss := List.map_fst_zip (by omega)
  have right : (ss.zip ts).map Prod.snd = ts := List.map_snd_zip (by omega)
  refine ⟨ss.zip ts, left.symm, right.symm, widenBranches_eq_map, ?_⟩
  have widest := isWidest_widen hs.canonical ht.canonical same
  have canonical := canonical_of_withoutWidth_eq hs.canonical (withoutWidth_widen same).symm
  constructor
  · rw [left]; exact hs
  · rw [right]; exact ht
  · intro p hp
    have mem : p.1 ∈ ss := left ▸ List.mem_map_of_mem hp
    exact Nat.le_trans (height_le_branchesHeight mem) low
  · exact fun p hp => eq_of_mem_zip (Schema.union.inj same) hp
  · intro p hp
    obtain ⟨i, hi⟩ := List.mem_iff_getElem?.1 hp
    obtain ⟨hs, ht⟩ := List.getElem?_zip_eq_some.1 hi
    exact keeps.part? (.branch i) hs ht
  · rw [← widenBranches_eq_map]
    rcases (keeps [] ss ts rfl rfl).resolve_left ne with kept | kept
    · exact kept.mono (widest.narrower List.mem_cons_self hs.canonical canonical)
    · refine kept.mono (widest.narrower ?_ ht.canonical canonical)
      exact List.mem_cons_of_mem _ List.mem_cons_self

variable (hj : WidensBelow j level)

include hj in
theorem joinRecords (hr : r.schema.Orderly) (hq : q.schema.Orderly)
    (low : r.schema.height ≤ level) (same : r.schema.withoutWidth = q.schema.withoutWidth)
    (keeps : KeepsUnions r.schema q.schema) (ne : r.schema ≠ q.schema) :
    Strict.joinAllWith j [r.schema, q.schema] = .ok (widen r.schema q.schema) := by
  have candidates : Strict.candidates [r.schema, q.schema] = [r, q].map Record.schema :=
    Strict.candidates_pair ne nofun nofun
  rw [Strict.joinAllWith_of_records candidates, Strict.joinRecords_of_overlapping
    (overlaps_pair same), List.foldlM_cons, hj.merge hr hq low same keeps]
  rfl

include hj in
theorem joinUnions (hs : (union ss).Orderly) (ht : (union ts).Orderly)
    (low : (union ss).height ≤ level) (same : (union ss).withoutWidth = (union ts).withoutWidth)
    (keeps : KeepsUnions (.union ss) (.union ts)) (ne : ss ≠ ts) :
    Strict.joinAllWith j [.union ss, .union ts] = .ok (widen (.union ss) (.union ts)) := by
  have candidates : Strict.candidates [.union ss, .union ts] = [.union ss, .union ts] := by
    apply Strict.candidates_pair
    · exact fun h => ne (Schema.union.inj h)
    · intro h
      cases h
    · intro h
      cases h
  obtain ⟨ps, rfl, rfl, wide, paired⟩ := paired hs ht low same keeps ne
  rw [widen, wide, Strict.joinAllWith, candidates]
  exact paired.assembleUnion hj

include hj in
/-- A join that widens lower schemas gives one by one step of the strict join. -/
theorem joinWith : WidensBelow (Strict.joinWith j) (level + 1) := by
  intro s t hs ht low same keeps
  by_cases heq : s = t
  · rw [Strict.joinWith, if_pos heq, ← heq, widen_self]
  obtain ⟨nes, net⟩ := ne_null_of_withoutWidth_eq same heq
  have low : s.height ≤ level := Nat.le_of_lt_succ low
  rw [Strict.joinWith, if_neg heq, if_neg nes, if_neg net]
  cases sameForm same with
  | @records n fs gs =>
    exact joinRecords hj (r := ⟨n, fs⟩) (q := ⟨n, gs⟩) hs ht low same keeps heq
  | unions => exact joinUnions hj hs ht low same keeps fun h => heq (congrArg union h)
  | _ => exact hj.joinPlain hs ht low same keeps rfl

end Step

end WidensBelow

namespace Strict

theorem widensBelow_joinWithin (level : Nat) : WidensBelow (joinWithin level) level := by
  induction level with
  | zero => exact fun _ _ low => absurd low (Nat.not_lt_zero _)
  | succ level ih => exact ih.joinWith

/-- The strict join widens schemas of one shape whose unions keep their branches. -/
theorem join_eq_widen {s t : Schema} (hs : s.Orderly) (ht : t.Orderly)
    (same : s.withoutWidth = t.withoutWidth) (keeps : KeepsUnions s t) :
    join s t = .ok (widen s t) :=
  widensBelow_joinWithin _ hs ht (by omega) same keeps

end Strict

end SchemaInference
