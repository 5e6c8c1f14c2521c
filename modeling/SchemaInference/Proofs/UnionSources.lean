import SchemaInference.Proofs.ElementOrder
import SchemaInference.Proofs.StableUnions
import SchemaInference.Proofs.Symmetry

/-!
# Where the branches of a union come from

A union of candidates without unions is filled by one plain branch and by what the clusters of
the records stand for.  Numbers share a slot, so what is known of them is that they only get
wider; any other branch has its slot for itself and is a branch of the union as it is.
-/

namespace SchemaInference

open Schema

theorem Schema.Plain.orderly {t : Schema} (h : t.Plain) : t.Orderly := by
  obtain ⟨canonical, free⟩ := h
  induction t using induction_parts with
  | primitive k => exact everywhere_primitive.2 trivial
  | array n items ih =>
    exact everywhere_array.2 ⟨trivial, ih (canonical_array.1 canonical) (unionFree_array.1 free)⟩
  | record n fields ih =>
    obtain ⟨asc, parts⟩ := canonical_record.1 canonical
    refine everywhere_record.2 ⟨asc, fun f t hmem => ?_⟩
    have found := asc.lookup_eq_some_iff.2 hmem
    exact ih f t hmem (parts f t found) ((unionFree_record asc).1 free f t found)
  | union bs => exact absurd free (not_unionFree_union bs)

/-- Types that are named by their place, hold no unions and agree in the parts that meet. -/
structure Candidates (name : Text) (cs : List Schema) : Prop where
  plain : ∀ c ∈ cs, PlainAt name c
  agree : ∀ s ∈ cs, ∀ t ∈ cs, PartsAgree s t

namespace Candidates
variable {name : Text} {cs : List Schema} (h : Candidates name cs)
include h

theorem aligned : Aligned (branchesHeight cs) cs := by
  refine aligned_of_partsAgree name (fun t ht => (h.plain t ht).canonical) (fun t ht => ?_) h.agree
  have plain := h.plain t ht
  refine ⟨plain.free.self, fun r eq => ?_⟩
  subst eq
  exact ⟨((followsNaming_record plain.ascending).1 plain.follows).1, plain.fieldsNamed⟩

theorem record (r : Record) (hr : r ∈ cs.filterMap record?) : PlainAt name r.schema :=
  h.plain _ (mem_filterMap_record?.1 hr)

end Candidates

/-- Primitives go into primitives that hold their values. -/
def KindFits (a b : Schema) : Prop :=
  ∀ k, a = .primitive k → ∃ l, b = .primitive l ∧ k.fits l = true

theorem kindFits_of_joinPlain {j : Join} {a b c : Schema}
    (joined : joinPlain .strict j a b = .ok c) : KindFits a c ∧ KindFits b c := by
  cases joinPlain_eq_ok.1 joined with
  | @primitives k l m kinds =>
    obtain ⟨left, right⟩ := Kind.fits_of_join? kinds
    constructor
    · intro i eq
      cases eq
      exact ⟨m, rfl, left⟩
    · intro i eq
      cases eq
      exact ⟨m, rfl, right⟩
  | arrays => constructor <;> intro k eq <;> cases eq

theorem widens_kindFits (j : Join) : Widens j (fun _ => True) KindFits where
  refl _ k eq := ⟨k, eq, k.fits_refl⟩
  trans hab hbc k eq := by
    obtain ⟨l, hb, fits⟩ := hab k eq
    obtain ⟨m, hc, fits'⟩ := hbc l hb
    exact ⟨m, hc, Kind.fits_trans fits fits'⟩
  join _ _ joined := ⟨trivial, kindFits_of_joinPlain joined⟩

namespace BranchTable
variable {j : Join} {table next : BranchTable} {parts front back : List Schema} {a : Schema}
  {k : Slot}

/-- A slot to which no branch comes stays as it is. -/
theorem get?_of_foldlM_add (h : parts.foldlM (add j) table = .ok next)
    (other : ∀ p ∈ parts, p.slot ≠ k) : Keyed.get? k next = Keyed.get? k table := by
  refine foldlM_invariant (fun _ t => Keyed.get? k t = Keyed.get? k table) h rfl ?_
  intro seen p rest t t' whole same step
  obtain ⟨c, -, rfl⟩ := add_eq_ok.1 step
  have ne : k ≠ p.slot := (other p (by simp [← whole])).symm
  rw [Keyed.get?_put, if_neg ne, same]

/-- A branch to whose slot no other branch comes is held as it is. -/
theorem get?_of_alone (h : (front ++ a :: back).foldlM (add j) [] = .ok next)
    (alone : ∀ p ∈ front ++ back, p.slot ≠ a.slot) : Keyed.get? a.slot next = some a := by
  rw [List.foldlM_append, bind_eq_ok] at h
  obtain ⟨mid, first, later⟩ := h
  obtain ⟨mid', step, later⟩ := foldlM_cons_eq_ok.1 later
  have free : Keyed.get? a.slot mid = none :=
    get?_of_foldlM_add first fun p hp => alone p (List.mem_append_left _ hp)
  rw [add_of_unused (Keyed.get?_eq_none_iff.1 free)] at step
  cases step
  rw [get?_of_foldlM_add later fun p hp => alone p (List.mem_append_right _ hp)]
  rw [Keyed.get?_append_of_unused (Keyed.get?_eq_none_iff.1 free), Keyed.get?, if_pos rfl]

end BranchTable

/-- How a union of candidates came about: the plain branch and the clusters filled a table. -/
structure UnionOf (cs plain : List Schema) (rs : List Record) (ws bs : List Schema)
    (final : BranchTable) : Prop where
  branch : plainBranch Strict.join cs = .ok plain
  clusters : Record.clusters Strict.join (cs.filterMap record?) = .ok rs
  placement : BranchTable.Placement (plain.map fun b => (b.slot, b)) rs ws
  filled : (plain ++ ws).foldlM (BranchTable.add Strict.join) [] = .ok final
  holds : BranchTable.Holds (fun _ => True) KindFits (plain ++ ws) final
  several : 2 ≤ final.length
  perm : bs.Perm (final.map Prod.snd)
  distinct : (bs.map slot).Nodup

theorem Candidates.exists_unionOf {name : Text} {cs bs : List Schema} (h : Candidates name cs)
    (assembled : assembleUnion Strict.join cs = .ok (.union bs)) :
    ∃ plain rs ws final, UnionOf cs plain rs ws bs final := by
  obtain ⟨plain, rs, table, final, branch, clusters, filled, added, eq⟩ :=
    assembleUnion_eq_ok.1 assembled
  have aligned := h.aligned
  rw [recordParts_of_flat aligned.flat] at clusters
  rw [simpleParts_of_flat aligned.flat] at filled
  obtain ⟨cover, isCluster⟩ := aligned.records.covers (Strict.joins_join _) clusters
  have simple := isCompound_of_mem_plainBranch branch
  have distinct : (plain.map slot).Nodup := by
    rcases (widens_true Strict.join).plainBranch (fun _ _ => trivial) branch with
      ⟨-, rfl⟩ | ⟨b, rfl, -⟩
    · simp
    · simp
  have holds := BranchTable.holds_of_foldlM (widens_kindFits _) (fun _ _ => trivial) simple filled
  obtain ⟨ws, placement, holds⟩ := holds.addClusters (widens_kindFits _) simple
    (fun _ _ => trivial) (fun _ _ _ _ => trivial) (fun r hr => (isCluster r hr).fieldsNamed)
    cover.apart added
  rw [placement.addClusters_eq] at added
  have start : table = plain.map fun b => (b.slot, b) := by
    have own : plain.foldlM (BranchTable.add Strict.join) [] =
        .ok (plain.map fun b => (b.slot, b)) := BranchTable.foldlM_add_of_unused distinct
    exact Except.ok.inj (filled.symm.trans own)
  have total : (plain ++ ws).foldlM (BranchTable.add Strict.join) [] = .ok final := by
    rw [List.foldlM_append, filled]
    exact added
  have assembled := holds.assembled
  rw [← eq] at assembled
  generalize whole : Schema.union bs = u at assembled
  cases assembled with
  | nothing => cases whole
  | only single =>
    have := holds.isUnion_eq_false u (by simp [single])
    rw [← whole] at this
    cases this
  | union several perm ascend distinct =>
    cases whole
    exact ⟨plain, rs, ws, final, branch, clusters, start ▸ placement, total, holds, several, perm,
      distinct⟩

/-- The plain branch is the least type above the plain candidates. -/
theorem Candidates.plainBranch_spec {name : Text} {cs plain : List Schema}
    (h : Candidates name cs) (branch : plainBranch Strict.join cs = .ok plain) :
    (plain = [] ∧ plainParts cs = []) ∨ ∃ b, plain = [b] ∧ IsJoinOf (plainParts cs) b ∧
      b.isCompound = false ∧ b.FollowsNaming name := by
  have form := (widens_true Strict.join).plainBranch (fun _ _ => trivial) branch
  rcases form with ⟨none, rfl⟩ | ⟨b, rfl, -, flat, -, some⟩
  · exact .inl ⟨rfl, none⟩
  · right
    have aligned := h.aligned
    have mem (t : Schema) (ht : t ∈ plainParts cs) : t ∈ cs := (mem_plainParts.1 ht).1
    have joined : joinList (joinPlain .strict Strict.join) (plainParts cs) = .ok b := by
      unfold plainBranch at branch
      split at branch
      · next none => exact absurd none some
      · cases joined : joinList (joinPlain .strict Strict.join) (plainParts cs) with
        | error reason => rw [joined] at branch; cases branch
        | ok c => rw [joined] at branch; cases branch; rfl
    have bound := (Strict.joins_join (branchesHeight cs)).isJoinOf_joinList
      (fun t ht => aligned.canonical t (mem t ht)) (fun t ht => aligned.low t (mem t ht))
      (fun s hs t ht => aligned.plain s (mem s hs) t (mem t ht) (mem_plainParts.1 hs).2.1
        (mem_plainParts.1 ht).2.1) joined
    exact ⟨b, rfl, bound, flat, bound.naming name fun t ht => (h.plain t (mem t ht)).follows⟩

/-- Wrappers that do not overlap wrap branches of different slots, numbers apart. -/
theorem pairwise_slot_ne {rs : List Record} {ws : List Schema}
    (wrapped : List.Forall₂ (fun r b => r.wrapped? = some b) rs ws)
    (named : ∀ r ∈ rs, r.FieldsNamed) (apart : rs.Pairwise fun r q => r.overlaps q = false) :
    ws.Pairwise fun a b => a.slot ≠ .number → a.slot ≠ b.slot := by
  induction wrapped with
  | nil => exact .nil
  | @cons r b rs bs found rest ih =>
    obtain ⟨namedr, named⟩ := List.forall_mem_cons.1 named
    obtain ⟨apartr, apart⟩ := List.pairwise_cons.1 apart
    refine List.pairwise_cons.2 ⟨fun a ha other => ?_, ih named apart⟩
    obtain ⟨q, hq, found'⟩ := exists_left_of_mem rest ha
    obtain ⟨tag, wraps⟩ := Record.wraps_of_wrapped? found
    obtain ⟨tag', wraps'⟩ := Record.wraps_of_wrapped? found'
    exact wraps.slot_ne wraps' namedr (named q hq) (apartr q hq) other

/-- What stands for clusters in a table are these clusters or what they wrap. -/
theorem BranchTable.Placement.eq_or_wrapped {table : BranchTable} {rs : List Record}
    {ws : List Schema} (placement : Placement table rs ws) {w : Schema} (hw : w ∈ ws) :
    ∃ r ∈ rs, w = r.schema ∨ r.wrapped? = some w := by
  cases placement with
  | record =>
    cases List.mem_singleton.1 hw
    exact ⟨_, List.mem_cons_self, .inl rfl⟩
  | held found =>
    cases List.mem_singleton.1 hw
    exact ⟨_, List.mem_cons_self, .inr found⟩
  | wrapped _ wrapped =>
    obtain ⟨r, hr, found⟩ := exists_left_of_mem wrapped hw
    exact ⟨r, hr, .inr found⟩

theorem BranchTable.Placement.slot_ne_unnamedArray {table : BranchTable} {rs : List Record}
    {ws : List Schema} (placement : Placement table rs ws) {w : Schema} (hw : w ∈ ws) :
    w.slot ≠ .of .unnamedArray := by
  obtain ⟨r, -, rfl | found⟩ := placement.eq_or_wrapped hw
  · exact nofun
  · obtain ⟨tag, wraps⟩ := Record.wraps_of_wrapped? found
    cases wraps with
    | @primitive _ _ _ l => cases l <;> exact nofun
    | _ => exact nofun

/-- A plain type that is named by its place has no name of its own. -/
theorem Schema.FollowsNaming.slot_ne_named {name : Text} {t : Schema} (h : t.FollowsNaming name)
    (plain : t.isCompound = false) (tag : Text) : t.slot ≠ .of (.named tag) := by
  cases t with
  | primitive k => cases k <;> exact nofun
  | array n items =>
    obtain ⟨rfl, -⟩ := followsNaming_array.1 h
    exact nofun
  | _ => cases plain

namespace UnionOf
variable {name : Text} {cs plain ws bs : List Schema} {rs : List Record} {final : BranchTable}
  {a b c w : Schema} {r R : Record} (u : UnionOf cs plain rs ws bs final)

include u

theorem mem_iff : b ∈ bs ↔ Keyed.get? b.slot final = some b := by
  rw [u.perm.mem_iff, List.mem_map]
  constructor
  · intro found
    obtain ⟨⟨k, c⟩, hmem, rfl⟩ := found
    have held := u.holds.mem_iff.1 hmem
    have slot := u.holds.slot k c held
    exact slot ▸ held
  · intro held
    exact ⟨(b.slot, b), u.holds.mem_iff.2 held, rfl⟩

/-- What comes to a slot of its own is a branch of the union. -/
theorem mem_of_alone {front back : List Schema} (split : plain ++ ws = front ++ a :: back)
    (alone : ∀ p ∈ front ++ back, p.slot ≠ a.slot) : a ∈ bs := by
  have filled := u.filled
  rw [split] at filled
  exact u.mem_iff.2 (BranchTable.get?_of_alone filled alone)

theorem exists_primitive {k : Kind} (source : .primitive k ∈ plain ++ ws) :
    ∃ l, .primitive l ∈ bs ∧ (primitive l).slot = (primitive k).slot ∧ k.fits l = true := by
  obtain ⟨b, held, fits⟩ := u.holds.covers _ source
  obtain ⟨l, rfl, wider⟩ := fits k rfl
  have slot := u.holds.slot _ _ held
  exact ⟨l, u.mem_iff.2 (slot ▸ held), slot, wider⟩

/-- A union with one cluster of records has a plain branch and the cluster as its branches. -/
theorem of_one_cluster (h : Candidates name cs) (one : rs = [R]) :
    ∃ b, plain = [b] ∧ b.isCompound = false ∧ bs.Perm [b, R.schema] ∧
      ∀ w, R.wrapped? = some w → b.slot ≠ w.slot := by
  subst one
  have several := u.several
  have filled := BranchTable.eq_append_of_foldlM_add (by simp) u.filled
  have count := u.placement.length_eq
  simp only [List.length_append, List.length_nil, List.length_singleton] at filled count
  rcases h.plainBranch_spec u.branch with ⟨rfl, -⟩ | ⟨b, rfl, -, flat, -⟩
  · rcases filled with fewer | ⟨-, eq⟩
    · simp only [List.length_nil] at fewer
      omega
    · rw [eq] at several
      simp at several
      omega
  rcases filled with fewer | ⟨distinct, eq⟩
  · simp only [List.length_singleton] at fewer
    omega
  have perm := u.perm
  rw [eq] at perm
  cases u.placement with
  | record free =>
    refine ⟨b, rfl, flat, perm, fun w wrapped same => ?_⟩
    have unused := free w wrapped
    simp [Keyed.get?, same] at unused
  | @held _ w wrapped held =>
    have ne : b.slot ≠ w.slot := by simpa using distinct
    simp [Keyed.get?, ne] at held
  | wrapped several => exact absurd rfl several

/-- A union with one cluster of records keeps its branches. -/
theorem keepsBranches_of_one_cluster (h : Candidates name cs) (one : rs = [R]) :
    KeepsBranches bs := by
  obtain ⟨b, -, flat, perm, apart⟩ := u.of_one_cluster h one
  have other := record?_eq_none flat
  have only (c : Schema) (hc : c ∈ bs) : c = b ∨ c = R.schema := by
    simpa using perm.mem_iff.1 hc
  refine ⟨u.distinct, ?_, fun c hc r found w wrapped p hp plain => ?_⟩
  · rw [perm.countP_eq]
    simp [other]
  · have own : c = R.schema := by
      rcases only c hc with rfl | own
      · cases other.symm.trans found
      · exact own
    subst own
    cases found
    rcases only p hp with rfl | rfl
    · exact apart w wrapped
    · cases plain

section Clusters
variable (h : Candidates name cs)
include h

theorem covers : Record.Covers (cs.filterMap record?) rs ∧
    ∀ R ∈ rs, Record.IsCluster (cs.filterMap record?) R :=
  h.aligned.records.covers (Strict.joins_join _) u.clusters

/-- The clusters of the candidates are records that are named by their place themselves. -/
theorem plainAt_of_mem (hR : R ∈ rs) : PlainAt name R.schema := by
  obtain ⟨⟨group, -, sub, merged⟩, -⟩ := (u.covers h).2 R hR
  have member : ∀ t ∈ group.map Record.schema, PlainAt name t :=
    List.forall_mem_map.2 fun r hr => h.record r (sub r hr)
  exact ⟨⟨merged.isJoinOf.canonical, merged.isJoinOf.unionFree fun t ht => (member t ht).free⟩,
    merged.isJoinOf.naming name fun t ht => (member t ht).follows⟩

/-- The records of the union are named by their place too. -/
theorem fieldsNamed (mem : R.schema ∈ bs) : R.FieldsNamed := by
  have source := u.holds.compound _ _ (u.mem_iff.1 mem) rfl
  have unpacked {q : Record} (hq : q ∈ rs) (found : q.wrapped? = some R.schema) :
      R.FieldsNamed := by
    obtain ⟨tag, wraps⟩ := Record.wraps_of_wrapped? found
    generalize eq : R.schema = w at wraps
    cases wraps with
    | @record n _ m fields =>
      cases eq
      have field : Record.field? ⟨n, [(tag, R.schema)]⟩ tag = some R.schema := by
        simp [Record.field?]
      exact ((u.plainAt_of_mem h hq).field field).fieldsNamed
    | _ => cases eq
  rcases List.mem_append.1 source with source | source
  · rcases h.plainBranch_spec u.branch with ⟨rfl, -⟩ | ⟨b, rfl, -, flat, -⟩
    · cases source
    · cases List.mem_singleton.1 source
      cases flat
  · obtain ⟨q, hq, own | found⟩ := u.placement.eq_or_wrapped source
    · exact Record.schema_injective own ▸ (u.plainAt_of_mem h hq).fieldsNamed
    · exact unpacked hq found

/-- All clusters are unpacked if the union has no records. -/
theorem wrapped_of_no_record (none : ∀ b ∈ bs, b.record? = none) :
    List.Forall₂ (fun r b => r.wrapped? = some b) rs ws := by
  have several : rs.length ≠ 1 := by
    intro one
    obtain ⟨q, rfl⟩ := List.length_eq_one_iff.1 one
    obtain ⟨b, -, -, perm, -⟩ := u.of_one_cluster h rfl
    cases none q.schema (perm.mem_iff.2 (by simp))
  cases u.placement with
  | record => exact absurd rfl several
  | held => exact absurd rfl several
  | wrapped _ wrapped => exact wrapped

/-- A branch with a name of its own that a cluster wraps is a branch of the union. -/
theorem mem_of_wrapped (wrapped : List.Forall₂ (fun r b => r.wrapped? = some b) rs ws)
    (hw : w ∈ ws) {tag : Text} (slot : w.slot = .of (.named tag)) : w ∈ bs := by
  obtain ⟨cover, isCluster⟩ := u.covers h
  have apart := pairwise_slot_ne wrapped (fun r hr => (isCluster r hr).fieldsNamed) cover.apart
  obtain ⟨front, back, rfl⟩ := List.append_of_mem hw
  obtain ⟨-, later, earlier⟩ := List.pairwise_append.1 apart
  have split : plain ++ (front ++ w :: back) = (plain ++ front) ++ w :: back :=
    (List.append_assoc _ _ _).symm
  have numbered : w.slot ≠ .number := by
    rw [slot]
    exact nofun
  refine u.mem_of_alone split (List.forall_mem_append.2 ⟨?_, fun p hp => ?_⟩)
  · refine List.forall_mem_append.2 ⟨fun p hp => ?_, fun p hp same => ?_⟩
    · rw [slot]
      rcases h.plainBranch_spec u.branch with ⟨rfl, -⟩ | ⟨b, rfl, -, flat, follows⟩
      · cases hp
      · cases List.mem_singleton.1 hp
        exact follows.slot_ne_named flat tag
    · exact earlier p hp w List.mem_cons_self (same ▸ numbered) same
  · exact ((List.pairwise_cons.1 later).1 p hp numbered).symm

end Clusters

end UnionOf

end SchemaInference
