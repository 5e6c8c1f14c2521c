import SchemaInference.Proofs.Assembly

/-!
# Orderly schemas

Whatever the strict join makes of orderly schemas is orderly: records list their fields in
ascending order, and unions have at least two branches, none of them a union, in ascending
order.
-/

namespace SchemaInference

open Schema

namespace Schema

/-- Whether a schema lists its fields or its branches in order. -/
def InOrder : Schema → Prop
  | .record _ fields => Ascending fields
  | .union branches =>
    2 ≤ branches.length ∧ (∀ b ∈ branches, b.isUnion = false) ∧ BranchesAscend branches
  | _ => True

/-- Whether all parts of a schema list their fields or branches in order. -/
abbrev Orderly (t : Schema) : Prop := t.Everywhere InOrder

variable {t b : Schema}

theorem Orderly.canonical (h : t.Orderly) : t.Canonical := by
  refine h.imp fun s hs => ?_
  cases s with
  | record => exact hs
  | _ => trivial

theorem orderly_record {r : Record} : r.schema.Orderly ↔
    Ascending r.fields ∧ ∀ f t, r.field? f = some t → t.Orderly := by
  rw [Record.schema, Orderly, everywhere_record]
  refine and_congr_right fun asc => forall₂_congr fun f t => ?_
  rw [← Ascending.lookup_eq_some_iff asc]
  rfl

theorem orderly_branch (h : t.Orderly) (hb : b ∈ t.branches) :
    b.Orderly ∧ b.isUnion = false := by
  cases t with
  | union bs => exact ⟨h.branch hb, h.self.2.1 b hb⟩
  | _ => cases List.mem_singleton.1 hb; exact ⟨h, rfl⟩

theorem orderly_wrapped {r : Record} (h : r.schema.Orderly) (wrapped : r.wrapped? = some b) :
    b.Orderly ∧ b.isUnion = false := by
  obtain ⟨tag, wraps⟩ := Record.wraps_of_wrapped? wrapped
  refine ⟨?_, wraps.isUnion_eq_false⟩
  cases wraps with
  | primitive => exact everywhere_primitive.2 trivial
  | @array _ _ n items =>
    have part : (Schema.array n items).Orderly := h.field (f := tag) (by simp)
    exact everywhere_array.2 ⟨trivial, part.items⟩
  | record => exact h.field (f := tag) (by simp)

end Schema

/-- A join that keeps schemas orderly. -/
def OrderlyJoin (j : Join) : Prop :=
  ∀ {a b c : Schema}, a.Orderly → b.Orderly → j a b = .ok c → c.Orderly

namespace OrderlyJoin
variable {j : Join} (hj : OrderlyJoin j)

include hj in
theorem widens : Widens j Orderly fun _ _ => True where
  refl _ := trivial
  trans _ _ := trivial
  join {a b c} ha hb joined := by
    refine ⟨?_, trivial, trivial⟩
    cases joinPlain_eq_ok.1 joined with
    | primitives => exact everywhere_primitive.2 trivial
    | arrays n m items => exact everywhere_array.2 ⟨trivial, hj ha.items hb.items items⟩

include hj in
theorem grows : Record.Grows j (fun r => r.schema.Orderly) fun _ _ => True where
  refl _ := trivial
  trans _ _ := trivial
  merge {a b c} ha hb _ merged := by
    obtain ⟨asca, partsa⟩ := orderly_record.1 ha
    obtain ⟨ascb, partsb⟩ := orderly_record.1 hb
    obtain ⟨_, ascc, field⟩ := Record.merge_spec merged asca ascb
    refine ⟨orderly_record.2 ⟨ascc, fun f u found => ?_⟩, trivial, trivial⟩
    have joined := field f
    rw [found] at joined
    apply joined.of_some (partsa f) (partsb f)
    intro s t hs ht inner
    exact hj (partsa f s hs) (partsb f t ht) inner

section Tables
variable {table next : BranchTable} {added : Schema} {rs : List Record}

/-- Whether all branches of a table are orderly and none is a union. -/
def OrderlyTable (table : BranchTable) : Prop :=
  ∀ e ∈ table, e.2.Orderly ∧ e.2.isUnion = false

include hj in
theorem orderly_add (h : OrderlyTable table) (good : added.Orderly) (flat : added.isUnion = false)
    (step : table.add j added = .ok next) : OrderlyTable next := by
  obtain ⟨c, filled, rfl⟩ := BranchTable.add_eq_ok.1 step
  have filler : c.Orderly ∧ c.isUnion = false := by
    generalize held : Keyed.get? added.slot table = present at filled
    cases BranchTable.filled_of_fill filled with
    | fresh => exact ⟨good, flat⟩
    | joined joined =>
      have hp := (h _ (Keyed.mem_of_get?_eq_some held)).1
      refine ⟨(hj.widens.join hp good joined).1, ?_⟩
      exact isUnion_eq_false (isCompound_of_joinPlain joined).2.2
    | records _ _ joined flat =>
      exact ⟨hj (h _ (Keyed.mem_of_get?_eq_some held)).1 good joined, flat⟩
  intro e he
  rcases Keyed.mem_of_mem_put he with rfl | he
  · exact filler
  · exact h e he

include hj in
theorem orderly_foldlM {parts : List Schema} (h : OrderlyTable table)
    (good : ∀ p ∈ parts, p.Orderly ∧ p.isUnion = false)
    (step : parts.foldlM (BranchTable.add j) table = .ok next) : OrderlyTable next := by
  refine foldlM_invariant (fun _ t => OrderlyTable t) step h ?_
  intro seen p rest t t' whole ht step
  obtain ⟨hp, flat⟩ := good p (by simp [← whole])
  exact hj.orderly_add ht hp flat step

include hj in
theorem orderly_addClusters (h : OrderlyTable table) (good : ∀ r ∈ rs, r.schema.Orderly)
    (step : table.addClusters j rs = .ok next) : OrderlyTable next := by
  have several (step : rs.foldlM (BranchTable.addWrapped j) table = .ok next) :
      OrderlyTable next := by
    refine foldlM_invariant (fun _ t => OrderlyTable t) step h ?_
    intro seen r rest t t' whole ht step
    cases wrapped : r.wrapped? with
    | none => rw [BranchTable.addWrapped, wrapped] at step; cases step
    | some b =>
      rw [BranchTable.addWrapped, wrapped] at step
      obtain ⟨hb, flat⟩ := orderly_wrapped (good r (by simp [← whole])) wrapped
      exact hj.orderly_add ht hb flat step
  rcases rs with _ | ⟨r, _ | ⟨s, rs⟩⟩
  · exact several step
  · have sole : (table.soleBranch r).Orderly ∧ (table.soleBranch r).isUnion = false := by
      have hr := good r List.mem_cons_self
      unfold BranchTable.soleBranch
      split
      · next b wrapped =>
        split
        · exact orderly_wrapped hr wrapped
        · exact ⟨hr, rfl⟩
      · exact ⟨hr, rfl⟩
    exact hj.orderly_add h sole.1 sole.2 step
  · exact several step

theorem orderly_schema (h : OrderlyTable table) : table.schema.Orderly := by
  have good : ∀ b ∈ table.map Prod.snd, b.Orderly ∧ b.isUnion = false :=
    List.forall_mem_map.2 h
  unfold BranchTable.schema
  generalize table.map Prod.snd = branches at good
  split
  · exact everywhere_primitive.2 trivial
  · next b => exact (good b List.mem_cons_self).1
  · next none one =>
    obtain ⟨bs, heq, perm, ascend⟩ := unionOf_of_flat fun b hb => (good b hb).2
    rw [heq]
    refine everywhere_union.2 ⟨⟨?_, fun b hb => ?_, ascend⟩, fun b hb => ?_⟩
    · rw [perm.length_eq]
      match branches with
      | [] => exact absurd rfl none
      | [b] => exact absurd rfl (one b)
      | _ :: _ :: _ => simp
    · exact (good b (perm.mem_iff.1 hb)).2
    · exact (good b (perm.mem_iff.1 hb)).1

end Tables

section Collections
variable {ts : List Schema} {c : Schema}

include hj in
theorem orderly_assembleUnion (good : ∀ t ∈ ts, t.Orderly) (h : assembleUnion j ts = .ok c) :
    c.Orderly := by
  obtain ⟨plain, rs, table, final, hplain, hrs, htable, hfinal, rfl⟩ := assembleUnion_eq_ok.1 h
  have parts : ∀ p ∈ compoundParts ts, p.Orderly ∧ p.isUnion = false :=
    forall_mem_compoundParts fun t ht b hb => orderly_branch (good t ht) hb
  have branch := hj.widens.forall_mem_plainBranch
    (fun t ht => good t (mem_plainParts.1 ht).1) hplain
  have simple : ∀ p ∈ simpleParts ts plain, p.Orderly ∧ p.isUnion = false := by
    refine List.forall_mem_append.2 ⟨fun p hp => parts p (List.mem_filter.1 hp).1, fun b hb => ?_⟩
    exact ⟨(branch b hb).1, isUnion_eq_false (branch b hb).2⟩
  have clusters := (hj.grows.clusters hrs (forall_mem_recordParts parts)).1
  have start : OrderlyTable [] := by simp [OrderlyTable]
  exact orderly_schema (hj.orderly_addClusters (hj.orderly_foldlM start simple htable) clusters
    hfinal)

include hj in
theorem orderly_joinAllWith (good : ∀ t ∈ ts, t.Orderly) (h : Strict.joinAllWith j ts = .ok c) :
    c.Orderly := by
  have good : ∀ t ∈ Strict.candidates ts, t.Orderly := fun t ht =>
    good t (Strict.mem_candidates.1 ht).1
  cases joinedAll_of_joinAllWith h with
  | plain plain joined =>
    exact (hj.widens.joinList_or_null (everywhere_primitive.2 trivial) good plain joined).1
  | @record rs r records clusters eq =>
    rw [eq]
    rw [records] at good
    have good : ∀ r ∈ rs, r.schema.Orderly := List.forall_mem_map.1 good
    exact (hj.grows.clusters clusters good).1 r List.mem_cons_self
  | union _ _ assembled => exact hj.orderly_assembleUnion good assembled

include hj in
theorem joinWith : OrderlyJoin (Strict.joinWith j) := by
  intro a b c ha hb h
  cases Strict.joined_of_joinWith h with
  | same => exact ha
  | nullLeft => exact hb
  | nullRight => exact ha
  | collection _ _ _ joined => exact hj.orderly_joinAllWith (forall_mem_pair.2 ⟨ha, hb⟩) joined
  | plain joined => exact (hj.widens.join ha hb joined).1

end Collections

end OrderlyJoin

namespace Strict

theorem orderlyJoin_joinWithin (level : Nat) : OrderlyJoin (joinWithin level) := by
  induction level with
  | zero => exact fun _ _ => nofun
  | succ level ih => exact ih.joinWith

theorem orderlyJoin_join : OrderlyJoin join := orderlyJoin_joinWithin _

end Strict

theorem inferenceInvariant_orderly {settings : Settings} (strict : settings.mode = .strict) :
    InferenceInvariant settings (fun _ _ => True) fun _ _ t => t.Orderly where
  scalar name s k _ := everywhere_primitive.2 trivial
  object name members fields _ parts := by
    refine orderly_record.2 ⟨Record.ascending_sortFields fields, fun f t found => ?_⟩
    obtain ⟨_, _, h⟩ := exists_member_of_field? (S := fun _ _ t => t.Orderly) parts found
    exact h
  array name elements types items parts _ joined := by
    rw [strict] at joined
    refine everywhere_array.2 ⟨trivial, Strict.orderlyJoin_join.orderly_joinAllWith ?_ joined⟩
    intro t ht
    obtain ⟨v, _, h⟩ := exists_left_of_mem parts ht
    exact h

end SchemaInference
