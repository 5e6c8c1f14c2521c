import SchemaInference.Proofs.Absorption
import SchemaInference.Proofs.Termination
import SchemaInference.Proofs.UnionSources

/-!
# Unions absorb their candidates

A type that went into a union finds its place there when it comes once more: a plain type is
below the branch of its slot, a wrapper wraps a type below a branch, and a record is below the
one record of the union.  What comes to a branch above it leaves the branch as it is.  This
holds as far as the union keeps its own branches when it is put together again.
-/

namespace SchemaInference

open Schema

theorem Kind.join?_eq_left {k l : Kind}
    (same : (Schema.primitive k).slot = (Schema.primitive l).slot) (fits : l.fits k = true) :
    k.join? .strict l = some k := by
  revert same fits
  cases k <;> cases l <;> decide

theorem Kind.slot_eq_of_join? {k l : Kind} (joined : l.join? .strict k = some l) :
    (Schema.primitive l).slot = (Schema.primitive k).slot := by
  revert joined
  cases k <;> cases l <;> decide

/--
Whether a record is a wrapper that a union holds, which has no records: a wrapper of null
needs a branch that holds the kind of its tag.
-/
def HoldsWrapper (bs : List Schema) (r : Record) : Prop :=
  ∃ tag t, r.fields = [(tag, t)] ∧
    (t = null → ∃ k l : Kind, k.keyword = tag ∧ .primitive l ∈ bs ∧ l.join? .strict k = some l)

theorem array_name_eq {n m : Option Text} {s t : Schema}
    (same : (Schema.array n s).slot = (Schema.array m t).slot) : n = m := by
  cases n with
  | none =>
    cases m with
    | none => rfl
    | some => cases same
  | some tag =>
    cases m with
    | none => cases same
    | some =>
      cases same
      rfl

namespace Joins
variable {j : Join} {level : Nat} (hj : Joins j level) {a b : Schema} {r q : Record}

include hj

theorem eq_left (ha : a.Canonical) (hb : b.Canonical) (lowa : a.height < level)
    (lowb : b.height < level) (agree : Agree True a b) (le : b ≤ a) : j a b = .ok a := by
  have mergeable := agree.mergeable_of_le (le_refl ha) le
  obtain ⟨c, joined⟩ := hj.exists_ok ha hb lowa lowb mergeable
  have bound := hj.isJoinOf ha hb lowa lowb agree joined
  obtain ⟨above, -⟩ := forall_mem_pair.1 bound.upper
  have below := bound.least a (forall_mem_pair.2 ⟨le_refl ha, le⟩)
  rw [joined, le_antisymm ha bound.canonical above below]

theorem joinPlain_eq_left (ha : a.Canonical) (hb : b.Canonical) (lowa : a.height ≤ level)
    (lowb : b.height ≤ level) (plain : a.isCompound = false) (slot : a.slot = b.slot)
    (agree : Agree True a b) (le : b ≤ a) : joinPlain .strict j a b = .ok a := by
  cases a with
  | primitive k =>
    obtain ⟨l, rfl, fits⟩ := le_primitive_iff.1 le
    simp only [joinPlain, Kind.join?_eq_left slot fits]
  | array n s =>
    cases b with
    | primitive l =>
      simp only [Schema.slot] at slot
      split at slot
      · cases slot
      · cases n <;> cases slot
    | array m t =>
      cases array_name_eq slot
      simp only [Schema.height] at lowa lowb
      have joined : j s t = .ok s := by
        apply hj.eq_left (canonical_array.1 ha) (canonical_array.1 hb) (by omega) (by omega)
        · simpa [Agree] using agree
        · exact (array_le_array.1 le).2
      simp only [joinPlain, joined, if_true, Except.map]
    | _ => simp [Agree] at agree
  | _ => cases plain

theorem merge_eq_left (hr : r.schema.Canonical) (hq : q.schema.Canonical)
    (lowr : r.schema.height ≤ level) (lowq : q.schema.height ≤ level)
    (consistent : r.Consistent True q) (overlap : r.overlaps q = true)
    (le : q.schema ≤ r.schema) : r.merge j q = .ok r := by
  have agree := (Record.agree_schema.2 ⟨consistent, overlap⟩).mergeable_of_le (le_refl hr) le
  obtain ⟨c, merged⟩ := hj.exists_merge hr hq lowr lowq (Record.agree_schema.1 agree).1
  have bound := (hj.isMergeOf hr hq lowr lowq consistent merged).isJoinOf
  obtain ⟨above, -⟩ := forall_mem_pair.1 bound.upper
  have below := bound.least r.schema (forall_mem_pair.2 ⟨le_refl hr, le⟩)
  have same : r = c := Record.schema_injective (le_antisymm hr bound.canonical above below)
  rw [merged, same]

end Joins

theorem Record.overlaps_of_le {r q : Record} (hq : Ascending q.fields)
    (le : q.schema ≤ r.schema) : r.overlaps q = true := by
  by_contra apart
  obtain ⟨-, full, free⟩ := overlaps_eq_false_iff.1 (eq_false_of_ne_true apart)
  refine full (fields_eq_nil_iff.2 fun f => ?_)
  cases found : q.field? f with
  | none => rfl
  | some s =>
    obtain ⟨t, found', -⟩ := ((schema_le_schema hq).1 le).2 f s found
    cases found.symm.trans (free f (by simp [found']))

theorem Record.Wraps.eq_tag {r : Record} {tag tag' : Text} {w t : Schema}
    (wraps : r.Wraps tag' w) (field : r.field? tag = some t) : tag = tag' := by
  by_contra other
  cases wraps <;> simp [field?, lookup_cons_ite, other] at field

namespace UnionOf
variable {name : Text} {cs plain ws bs : List Schema} {rs : List Record} {final : BranchTable}
  {c : Schema} {r R : Record} (u : UnionOf cs plain rs ws bs final) (h : Candidates name cs)

include u h

/-- The branch of a plain candidate is not changed by it. -/
theorem exists_branch (hc : c ∈ cs) (plain : c.isCompound = false)
    (full : c ≠ null) :
    ∃ b ∈ bs, b.slot = c.slot ∧ joinPlain .strict Strict.join b c = .ok b := by
  have aligned := h.aligned
  have hp : c ∈ plainParts cs := mem_plainParts.2 ⟨hc, plain, full⟩
  rcases h.plainBranch_spec u.branch with ⟨-, none⟩ | ⟨b, rfl, bound, -, follows⟩
  · rw [none] at hp
    cases hp
  have le := bound.upper c hp
  -- what holds a plain candidate below a branch of its slot
  have unchanged {d : Schema} (hd : d.Canonical) (flat : d.isCompound = false)
      (slot : d.slot = c.slot) (agree : Agree True d c) (le : c ≤ d) :
      joinPlain .strict Strict.join d c = .ok d :=
    (Strict.joins_join (max d.height c.height)).joinPlain_eq_left hd (aligned.canonical c hc)
      (by omega) (by omega) flat slot agree le
  cases c with
  | primitive k =>
    obtain rfl | ⟨m, rfl, fits⟩ := primitive_le_iff.1 le
    · exact absurd rfl full
    obtain ⟨l, hl, slot, fits'⟩ := u.exists_primitive (k := m) (by simp)
    have wider := Kind.fits_trans fits fits'
    have slot : (Schema.primitive l).slot = (Schema.primitive k).slot := by
      have ne : k ≠ .null := fun eq => full (congrArg Schema.primitive eq)
      revert ne wider
      cases k <;> cases l <;> decide
    refine ⟨.primitive l, hl, slot, ?_⟩
    exact unchanged (canonical_primitive l) rfl slot (by simp [Agree])
      (primitive_le_primitive.2 wider)
  | array n s =>
    obtain ⟨o, items, rfl, -, -⟩ := array_le_iff.1 le
    obtain ⟨rfl, -⟩ := followsNaming_array.1 follows
    obtain ⟨rfl, -⟩ := followsNaming_array.1 (h.plain _ hc).follows
    refine ⟨.array none items, ?_, rfl, ?_⟩
    · have split : [Schema.array none items] ++ ws = [] ++ .array none items :: ws := rfl
      exact u.mem_of_alone split fun p hp => u.placement.slot_ne_unnamedArray hp
    · apply unchanged bound.canonical rfl rfl _ le
      apply bound.agree True _ (aligned.canonical _ hc)
      intro t ht
      obtain ⟨ht, flat, -⟩ := mem_plainParts.1 ht
      exact aligned.plain t ht _ hc flat plain
  | _ => cases plain

theorem merge_eq_left (one : rs = [R]) (hr : r ∈ cs.filterMap record?) :
    R.overlaps r = true ∧ R.merge Strict.join r = .ok R := by
  have matching := h.aligned.records
  have hj := Strict.joins_join (branchesHeight cs)
  subst one
  obtain ⟨cover, isCluster⟩ := u.covers h
  obtain ⟨R', hR', le⟩ := cover.above r hr
  cases List.mem_singleton.1 hR'
  have cluster := isCluster R hR'
  have single := Record.IsCluster.single matching hr
  have overlap := Record.overlaps_of_le (h.record r hr).ascending le
  exact ⟨overlap, hj.merge_eq_left cluster.canonical single.canonical (cluster.low matching)
    (single.low matching) (cluster.consistent matching single) overlap le⟩

/-- A record with one field that is not null stays in a union without records. -/
theorem staysIn_of_wrapper (none : ∀ b ∈ bs, b.record? = none) (hr : r.schema ∈ cs) {tag : Text}
    {t : Schema} (fields : r.fields = [(tag, t)]) (full : t ≠ null) :
    StaysIn Strict.join bs r := by
  have matching := h.aligned.records
  have hr : r ∈ cs.filterMap record? := mem_filterMap_record?.2 hr
  obtain ⟨cover, isCluster⟩ := u.covers h
  have wrapped := u.wrapped_of_no_record h none
  obtain ⟨R, hR, below⟩ := cover.above r hr
  obtain ⟨w, hw, found⟩ := exists_right_of_mem wrapped hR
  obtain ⟨tag', wraps⟩ := Record.wraps_of_wrapped? found
  have own := h.record r hr
  have field : r.field? tag = some t := by simp [Record.field?, fields]
  obtain ⟨T, field', le⟩ := ((Record.schema_le_schema own.ascending).1 below).2 tag t field
  obtain ⟨asc, parts⟩ := Record.canonical_schema.1 (isCluster R hR).canonical
  have consistent := (isCluster R hR).consistent matching (.single matching hr)
  have agree := ((Record.consistent_iff asc).1 consistent).2 tag T t field' field
  obtain ⟨n, fs⟩ := r
  cases fields
  cases wraps.eq_tag field'
  cases wraps with
  | @primitive _ _ k l named fits =>
    obtain rfl : Schema.primitive k = T := by simpa [Record.field?] using field'
    obtain ⟨i, rfl, narrower⟩ := le_primitive_iff.1 le
    obtain ⟨m, hm, slot, wider⟩ := u.exists_primitive (List.mem_append_right plain hw)
    refine .wrapper none ?_ hm slot ?_
    · simp [Record.wrapped?, named, Kind.fits_trans narrower fits]
    · simp only [joinPlain, Kind.join?_eq_left slot wider]
  | @array _ _ o items =>
    obtain rfl : Schema.array o items = T := by simpa [Record.field?] using field'
    cases t with
    | primitive i =>
      obtain rfl | ⟨l, eq, -⟩ := primitive_le_iff.1 le
      · exact absurd rfl full
      · cases eq
    | array p s =>
      have hb := u.mem_of_wrapped h wrapped hw (rfl : slot _ = .of (.named tag))
      refine .wrapper none rfl hb rfl ?_
      have hj := Strict.joins_join (max items.height s.height + 1)
      refine hj.joinPlain_eq_left ?_ ?_ ?_ ?_ rfl rfl ?_ ?_
      · exact canonical_array.2 (canonical_array.1 (parts tag _ field'))
      · exact canonical_array.2 (canonical_array.1 (own.field field).canonical)
      · simp only [Schema.height]
        omega
      · simp only [Schema.height]
        omega
      · simpa [Agree] using agree
      · exact array_le_array.2 ⟨.inl rfl, (array_le_array.1 le).2⟩
    | record =>
      obtain ⟨gs, eq, -⟩ := record_le_iff.1 le
      cases eq
    | union => cases union_le_iff.1 le
  | @record _ _ m gs =>
    cases none _ (u.mem_of_wrapped h wrapped hw (rfl : slot _ = .of (.named m)))

/-- What stays in a union without records are the wrappers that it holds. -/
theorem staysIn_iff_of_no_record (none : ∀ b ∈ bs, b.record? = none) (hr : r.schema ∈ cs) :
    StaysIn Strict.join bs r ↔ HoldsWrapper bs r := by
  constructor
  · intro stays
    cases stays with
    | record mem => cases none _ mem
    | @wrapper w b _ wrapped hb slot joined =>
      obtain ⟨tag, wraps⟩ := Record.wraps_of_wrapped? wrapped
      cases wraps with
      | @primitive _ _ k l named fits =>
        refine ⟨tag, _, rfl, fun _ => ?_⟩
        generalize own : b = c at joined
        cases joinPlain_eq_ok.1 joined with
        | @primitives m _ _ kinds => exact ⟨l, m, named.symm, own ▸ hb, kinds⟩
      | array => exact ⟨tag, _, rfl, nofun⟩
      | record => exact ⟨tag, _, rfl, nofun⟩
  · rintro ⟨tag, t, fields, ofNull⟩
    by_cases full : t = null
    · obtain ⟨k, l, rfl, hl, kinds⟩ := ofNull full
      have wrapped : r.wrapped? = some (.primitive k) := by
        simp [Record.wrapped?, fields, full, Kind.fits]
      exact .wrapper none wrapped hl (Kind.slot_eq_of_join? kinds) (by simp [joinPlain, kinds])
    · exact u.staysIn_of_wrapper h none hr fields full

end UnionOf

namespace Strict

/-- To join a union with a type is to put it together once more with that type. -/
theorem join_union_eq {bs : List Schema} {c : Schema} (hbs : (Schema.union bs).Orderly)
    (hc : c.Orderly) (flat : c.isUnion = false) (full : c ≠ null) :
    join (.union bs) c = assembleUnion join [.union bs, c] := by
  have flatUnions {t : Schema} (h : t.Orderly) : t.FlatUnions := by
    refine h.imp fun s hs => ?_
    cases s with
    | union branches => exact hs.2.1
    | _ => trivial
  have ne : Schema.union bs ≠ c := by
    rintro rfl
    cases flat
  let n := max (Schema.union bs).height c.height
  have step : join (.union bs) c = assembleUnion (joinWithin n) [.union bs, c] := by
    change joinWith (joinWithin n) (.union bs) c = _
    simp only [joinWith, if_neg ne, if_neg full, reduceCtorEq, if_false]
    rw [joinAllWith, candidates_pair ne (by simp) full]
    rfl
  have settled : Settled n (joinWithin n) join := by
    rw [joinWithin_eq]
    exact settled_join .strict (joinWithin 0) n
  have low : ∀ t ∈ [Schema.union bs, c], Low n t :=
    forall_mem_pair.2 ⟨⟨flatUnions hbs, Nat.le_max_left _ _⟩, flatUnions hc, Nat.le_max_right _ _⟩
  rw [step]
  exact (settled.assembleUnion (Nat.le_refl n) low).eq

end Strict

/-- A union that is left as it is by a type, whether the two are joined or put together. -/
structure Absorbs (bs : List Schema) (c : Schema) : Prop where
  assembled : assembleUnion Strict.join [.union bs, c] = .ok (.union bs)
  joined : Strict.join (.union bs) c = .ok (.union bs)

/-- Which of the candidates `cs` the union of the branches `bs` absorbs that was made of them. -/
structure AbsorbsCandidates (cs bs : List Schema) : Prop where
  plain : KeepsBranches bs → ∀ c ∈ cs, c.isCompound = false → Absorbs bs c
  record : KeepsBranches bs → ∀ R r : Record, R.schema ∈ bs → r.schema ∈ cs →
    (Absorbs bs r.schema ↔ R.TakesUp Strict.join r)
  /-- If one cluster holds all records, the union keeps its branches and absorbs all candidates. -/
  oneCluster : ∀ R, Record.clusters Strict.join (cs.filterMap record?) = .ok [R] →
    KeepsBranches bs ∧ ∀ c ∈ cs, Absorbs bs c
  /-- If no branch is a record, the union keeps its branches and absorbs the wrappers it holds. -/
  noRecord : (∀ b ∈ bs, b.record? = none) → KeepsBranches bs ∧
    ∀ r : Record, r.schema ∈ cs → (Absorbs bs r.schema ↔ HoldsWrapper bs r)

section Absorption
variable {name : Text} {cs bs : List Schema} {c : Schema}

theorem orderly_of_plainAt (plain : ∀ c ∈ cs, PlainAt name c)
    (assembled : assembleUnion Strict.join cs = .ok (.union bs)) : (Schema.union bs).Orderly :=
  Strict.orderlyJoin_join.orderly_assembleUnion (fun c hc => (plain c hc).orderly) assembled

namespace Candidates
variable (h : Candidates name cs)
  (assembled : assembleUnion Strict.join cs = .ok (.union bs))
include h assembled

theorem absorbs_iff (hc : c ∈ cs) (full : c ≠ null) :
    Absorbs bs c ↔ assembleUnion Strict.join [.union bs, c] = .ok (.union bs) := by
  have plain := h.plain c hc
  have same := Strict.join_union_eq (orderly_of_plainAt h.plain assembled) plain.orderly
    plain.free.self full
  exact ⟨fun absorbs => absorbs.assembled, fun found => ⟨found, same.trans found⟩⟩

theorem absorbs_plain (keeps : KeepsBranches bs) (hc : c ∈ cs) (plain : c.isCompound = false) :
    Absorbs bs c := by
  have orderly := orderly_of_plainAt h.plain assembled
  by_cases full : c = null
  · subst full
    refine ⟨?_, ?_⟩
    · rw [assembleUnion_with_null]
      exact keeps.assembleUnion orderly
    · simp [Strict.join, Strict.joinWithin, Strict.joinWith]
  · rw [h.absorbs_iff assembled hc full]
    obtain ⟨_, _, _, _, u⟩ := h.exists_unionOf assembled
    obtain ⟨b, hb, slot, joined⟩ := u.exists_branch h hc plain full
    exact keeps.assembleUnion_plain orderly plain full hb slot joined

theorem absorbs_record_iff (keeps : KeepsBranches bs) {r : Record} (hr : r.schema ∈ cs) :
    Absorbs bs r.schema ↔ StaysIn Strict.join bs r := by
  obtain ⟨_, _, _, _, u⟩ := h.exists_unionOf assembled
  rw [h.absorbs_iff assembled hr r.schema_ne_null]
  exact keeps.assembleUnion_record_iff Strict.orderlyJoin_join
    (orderly_of_plainAt h.plain assembled) (h.plain _ hr).orderly
    (fun R mem => u.fieldsNamed h mem) (h.plain _ hr).fieldsNamed

theorem absorbs : AbsorbsCandidates cs bs where
  plain keeps _ hc plain := h.absorbs_plain assembled keeps hc plain
  record keeps R r hR hr := by
    rw [h.absorbs_record_iff assembled keeps hr]
    exact keeps.staysIn_iff (orderly_of_plainAt h.plain assembled) hR (h.plain _ hr).ascending
  oneCluster R one := by
    obtain ⟨_, rs, _, _, u⟩ := h.exists_unionOf assembled
    have one : rs = [R] := Except.ok.inj (u.clusters.symm.trans one)
    have keeps := u.keepsBranches_of_one_cluster h one
    refine ⟨keeps, fun c hc => ?_⟩
    cases record : c.record? with
    | none =>
      have flat := (h.plain c hc).free.self
      exact h.absorbs_plain assembled keeps hc (isCompound_eq_false record flat)
    | some r =>
      have own : r.schema = c := schema_of_record? record
      subst own
      obtain ⟨overlap, merged⟩ := u.merge_eq_left h one (mem_filterMap_record?.2 hc)
      obtain ⟨b, -, -, perm, -⟩ := u.of_one_cluster h one
      have mem : R.schema ∈ bs := perm.mem_iff.2 (by simp)
      exact (h.absorbs_record_iff assembled keeps hc).2 (.record mem overlap merged)
  noRecord none := by
    obtain ⟨_, _, _, _, u⟩ := h.exists_unionOf assembled
    have keeps := KeepsBranches.of_no_record u.distinct none
    refine ⟨keeps, fun r hr => ?_⟩
    rw [h.absorbs_record_iff assembled keeps hr]
    exact u.staysIn_iff_of_no_record h none hr

end Candidates

/--
A union that is put together from candidates without unions, which are named by their place,
comes back when it is put together again exactly if it keeps its branches.  Where the candidates
agree in the parts that meet, it then absorbs the plain ones, of the records those that its own
record takes up, and if it has none the wrappers that it holds: all candidates if their records
are one cluster, and if no branch is a record all wrappers of other types than null.
-/
theorem absorbsCandidates (plain : ∀ c ∈ cs, PlainAt name c)
    (assembled : assembleUnion Strict.join cs = .ok (.union bs)) :
    (assembleUnion Strict.join [.union bs] = .ok (.union bs) ↔ KeepsBranches bs) ∧
    ((∀ s ∈ cs, ∀ t ∈ cs, PartsAgree s t) → AbsorbsCandidates cs bs) := by
  refine ⟨?_, fun agree => ?_⟩
  · exact assembleUnion_union_iff Strict.orderlyJoin_join (orderly_of_plainAt plain assembled)
  · exact Candidates.absorbs ⟨plain, agree⟩ assembled

end Absorption

/--
Wrappers stay with the number and the array that they wrap, a wrapper of null with the number
too, and an empty record with the other.
-/
theorem absorbsCandidates_of_wrappers :
    Absorbs [.primitive .double, .array (some "tags") (.primitive .string)]
        (.record "r" [("int", .primitive .int)]) ∧
    Absorbs [.primitive .double, .array (some "tags") (.primitive .string)]
        (.record "r" [("int", null)]) ∧
    Absorbs [.primitive .string, .record "r" [("x", .primitive .int)]] (.record "r" []) := by
  let int (k : Kind) : Record := ⟨"r", [("int", .primitive k)]⟩
  let tags : Record := ⟨"r", [("tags", .array none (.primitive .string))]⟩
  let full : Record := ⟨"r", [("x", .primitive .int)]⟩
  let empty : Record := ⟨"r", []⟩
  have primitive (k : Kind) : PlainAt "r" (.primitive k) :=
    ⟨⟨canonical_primitive k, unionFree_primitive k⟩, followsNaming_primitive k⟩
  have wrapper (k : Kind) (formed : (int k).schema.Canonical ∧ (int k).schema.UnionFree) :
      PlainAt "r" (int k).schema :=
    ⟨⟨formed.1, formed.2⟩, by simp [int, Record.schema, FollowsNaming, FieldsFollowNaming]⟩
  have wrappers : Absorbs [.primitive .double, .array (some "tags") (.primitive .string)]
      (int .int).schema ∧
        Absorbs [.primitive .double, .array (some "tags") (.primitive .string)]
          (int .null).schema := by
    let cs : List Schema :=
      [.primitive .double, (int .int).schema, (int .null).schema, tags.schema]
    have candidates : Candidates "r" cs := by
      refine ⟨?_, by decide⟩
      simp only [cs, List.forall_mem_cons, List.not_mem_nil, false_imp_iff, forall_const, and_true]
      refine ⟨primitive .double, wrapper .int (by decide), wrapper .null (by decide), ?_⟩
      refine ⟨⟨by decide, by decide⟩, ?_⟩
      simp [tags, Record.schema, FollowsNaming, FieldsFollowNaming]
    have assembled : assembleUnion Strict.join cs =
        .ok (.union [.primitive .double, .array (some "tags") (.primitive .string)]) :=
      congrArg _ (unionOf_pair _ _ rfl rfl rfl)
    have absorbs := (absorbsCandidates candidates.plain assembled).2 candidates.agree
    obtain ⟨-, iff⟩ := absorbs.noRecord (by decide)
    refine ⟨(iff (int .int) (by simp [cs])).2 ⟨"int", _, rfl, by simp [null]⟩, ?_⟩
    refine (iff (int .null) (by simp [cs])).2 ⟨"int", _, rfl, fun _ => ?_⟩
    exact ⟨.int, .double, rfl, List.mem_cons_self, rfl⟩
  have absent : Absorbs [.primitive .string, full.schema] empty.schema := by
    have candidates : Candidates "r" [.primitive .string, full.schema, empty.schema] := by
      refine ⟨List.forall_mem_cons.2 ⟨primitive .string, forall_mem_pair.2 ⟨?_, ?_⟩⟩, by decide⟩
      · refine ⟨⟨by decide, by decide⟩, ?_⟩
        simp [full, Record.schema, FollowsNaming, FieldsFollowNaming]
      · refine ⟨⟨by decide, by decide⟩, ?_⟩
        simp [empty, Record.schema, FollowsNaming, FieldsFollowNaming]
    have assembled : assembleUnion Strict.join [.primitive .string, full.schema, empty.schema] =
        .ok (.union [.primitive .string, full.schema]) :=
      congrArg _ (unionOf_pair _ _ rfl rfl rfl)
    have absorbs := (absorbsCandidates candidates.plain assembled).2 candidates.agree
    exact (absorbs.oneCluster full rfl).2 empty.schema (by simp)
  exact ⟨wrappers.1, wrappers.2, absent⟩

/--
Two records that were unpacked from wrappers of different tags are clustered by their shared
field when the union is put together again: it loses a branch, and with one of the wrappers
there is no union any more.
-/
theorem exists_union_not_absorbed : ∃ (cs bs : List Schema) (c : Schema),
    Candidates "r" cs ∧ assembleUnion Strict.join cs = .ok (.union bs) ∧ c ∈ cs ∧
      assembleUnion Strict.join [.union bs] ≠ .ok (.union bs) ∧
      assembleUnion Strict.join [.union bs, c] ≠ .ok (.union bs) ∧
      Strict.join (.union bs) c ≠ .ok (.union bs) := by
  let branch (tag : Text) : Schema := .record tag [("x", .primitive .int)]
  let wrapper (tag : Text) : Schema := .record "r" [(tag, branch tag)]
  have plain (tag : Text) (hw : (wrapper tag).Canonical ∧ (wrapper tag).UnionFree) :
      PlainAt "r" (wrapper tag) :=
    ⟨⟨hw.1, hw.2⟩, by simp [wrapper, branch, FollowsNaming, FieldsFollowNaming]⟩
  refine ⟨[wrapper "a", wrapper "b"], [branch "a", branch "b"], wrapper "a", ⟨?_, by decide⟩,
    congrArg _ (unionOf_pair _ _ rfl rfl (by decide)), List.mem_cons_self, ?_, ?_, ?_⟩
  · exact forall_mem_pair.2 ⟨plain "a" (by decide), plain "b" (by decide)⟩
  · have lost : assembleUnion Strict.join [.union [branch "a", branch "b"]] =
        .ok (branch "a") := rfl
    rw [lost]
    simp [branch]
  · have failed : (assembleUnion Strict.join [.union [branch "a", branch "b"],
        wrapper "a"]).toOption = none := rfl
    intro found
    rw [found] at failed
    cases failed
  · have failed : (Strict.join (.union [branch "a", branch "b"]) (wrapper "a")).toOption =
        none := rfl
    intro found
    rw [found] at failed
    cases failed

end SchemaInference
