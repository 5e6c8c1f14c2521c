import SchemaInference.Proofs.GuardedJoin
import SchemaInference.Proofs.Orderly

/-!
# The shape of unions

A proper union has at least two branches, none a union, with distinct labels in
ascending order and at most one of them a number.  A schema is tidy if its unions are
proper and its records have their fields in order and record-typed fields named after
the field.  Strict joins keep schemas tidy as long as no union collapses into a record of
another name.
-/

namespace SchemaInference

open Schema

namespace Schema

def isNumber : Schema → Bool
  | .primitive k => k.isNumeric
  | _ => false

/-- Whether a schema is a record of the given name. -/
def isRecordNamed (name : Text) : Schema → Bool
  | .record other _ => other = name
  | _ => false

structure ProperBranches (branches : List Schema) : Prop where
  several : 2 ≤ branches.length
  flat : ∀ b ∈ branches, b.isUnion = false
  distinct : (branches.map branchLabel).Nodup
  number : branches.countP isNumber ≤ 1
  ascend : BranchesAscend branches

/-- Whether a schema is no union or a proper one. -/
def ProperUnion : Schema → Prop
  | .union branches => ProperBranches branches
  | _ => True

/-- Whether a schema is properly built at its root. -/
def Tidy : Schema → Prop
  | .record name fields => Ascending fields ∧ (Record.mk name fields).FieldsNamed
  | .union branches => 2 ≤ branches.length ∧ (∀ b ∈ branches, b.isUnion = false) ∧
    BranchesAscend branches ∧ (branches.map slot).Nodup
  | _ => True

theorem exists_of_isRecordNamed {name : Text} {t : Schema} (h : t.isRecordNamed name = true) :
    ∃ q : Record, q.name = name ∧ t = q.schema := by
  cases t with
  | record other fields => exact ⟨⟨other, fields⟩, of_decide_eq_true h, rfl⟩
  | _ => cases h

theorem isNumber_iff {b : Schema} : b.isNumber = true ↔ b.slot = .number := by
  cases b with
  | primitive k => cases k <;> decide
  | _ => simp [isNumber, slot]

theorem properUnion_of_tidy {t : Schema} (h : t.Tidy) : t.ProperUnion := by
  cases t with
  | union branches =>
    obtain ⟨several, flat, ascend, slots⟩ := h
    refine ⟨several, flat, ?_, ?_, ascend⟩
    · refine List.pairwise_map.2 ((List.pairwise_map.1 slots).imp fun hne heq => hne ?_)
      exact slot_eq_of_branchLabel_eq heq
    · have count : branches.countP isNumber = (branches.map slot).count .number := by
        rw [List.count, List.countP_map]
        refine List.countP_congr fun b _ => ?_
        rw [isNumber_iff]
        simp
      rw [count]
      exact List.nodup_iff_count_le_one.1 slots .number
  | _ => trivial

theorem properUnion_of_flat {t : Schema} (flat : t.isUnion = false) : t.ProperUnion := by
  cases t with
  | union => cases flat
  | _ => trivial

abbrev AllTidy (t : Schema) : Prop := t.Everywhere Tidy

theorem AllTidy.canonical {t : Schema} (h : t.AllTidy) : t.Canonical := by
  refine h.imp fun s hs => ?_
  cases s with
  | record => exact hs.1
  | _ => trivial

theorem allTidy_record {r : Record} : r.schema.AllTidy ↔
    (Ascending r.fields ∧ r.FieldsNamed) ∧ ∀ f t, r.field? f = some t → t.AllTidy := by
  rw [Record.schema, AllTidy, everywhere_record]
  refine and_congr_right fun tidy => forall₂_congr fun f t => ?_
  rw [← tidy.1.lookup_eq_some_iff]
  rfl

end Schema

/-- A join that keeps schemas tidy and makes records of records only, keeping their names. -/
structure TidyJoin (j : Join) : Prop where
  tidy : ∀ {a b c : Schema}, a.AllTidy → b.AllTidy → j a b = .ok c → c.AllTidy
  record : ∀ {a b : Schema} {r : Record}, a.AllTidy → b.AllTidy → j a b = .ok r.schema →
    ∃ q : Record, q.name = r.name ∧ (a = q.schema ∨ b = q.schema)

namespace TidyJoin
variable {j : Join} (hj : TidyJoin j)

section Records
variable {a b c : Record}

include hj in
theorem tidy_merge (ha : a.schema.AllTidy) (hb : b.schema.AllTidy) (h : a.merge j b = .ok c) :
    c.schema.AllTidy := by
  obtain ⟨⟨asca, nameda⟩, partsa⟩ := allTidy_record.1 ha
  obtain ⟨⟨ascb, namedb⟩, partsb⟩ := allTidy_record.1 hb
  obtain ⟨_, ascc, field⟩ := Record.merge_spec h asca ascb
  have part (f : Text) (u : Schema) (found : c.field? f = some u) :
      u.AllTidy ∧ ∀ m gs, u = .record m gs → m = f := by
    have joined := field f
    rw [found] at joined
    apply joined.of_some (fun s hs => ⟨partsa f s hs, fun m gs heq => nameda f m gs (heq ▸ hs)⟩)
      fun t ht => ⟨partsb f t ht, fun m gs heq => namedb f m gs (heq ▸ ht)⟩
    intro s t hs ht inner
    refine ⟨hj.tidy (partsa f s hs) (partsb f t ht) inner, fun m gs heq => ?_⟩
    obtain ⟨q, rfl, hq⟩ := hj.record (r := ⟨m, gs⟩) (partsa f s hs) (partsb f t ht)
      (by rw [inner, heq]; rfl)
    rcases hq with rfl | rfl
    · exact nameda f q.name q.fields hs
    · exact namedb f q.name q.fields ht
  exact allTidy_record.2 ⟨⟨ascc, fun f m gs found => (part f _ found).2 m gs rfl⟩,
    fun f t found => (part f t found).1⟩

include hj in
theorem tidy_clusters {rs cs : List Record} (good : ∀ r ∈ rs, r.schema.AllTidy)
    (h : Record.clusters j rs = .ok cs) :
    ∀ c ∈ cs, c.schema.AllTidy ∧ ∃ r ∈ rs, r.name = c.name := by
  have grows : Record.Grows j (fun c => c.schema.AllTidy ∧ ∃ r ∈ rs, r.name = c.name)
      fun _ _ => True := by
    refine ⟨fun _ => trivial, fun _ _ => trivial, ?_⟩
    rintro a b c ⟨ha, r, hr, name⟩ ⟨hb, _⟩ _ merged
    have kept := (Record.merge_spec merged (allTidy_record.1 ha).1.1 (allTidy_record.1 hb).1.1).1
    exact ⟨⟨hj.tidy_merge ha hb merged, r, hr, name.trans kept.symm⟩, trivial, trivial⟩
  exact (grows.clusters h fun r hr => ⟨good r hr, r, hr, rfl⟩).1

end Records

include hj in
theorem widens : Widens j AllTidy fun s c => s.isCompound = false → c.isCompound = false where
  refl _ := id
  trans hab hbc := hbc ∘ hab
  join {a b c} ha hb joined := by
    have plain := (isCompound_of_joinPlain joined).2.2
    refine ⟨?_, fun _ => plain, fun _ => plain⟩
    cases joinPlain_eq_ok.1 joined with
    | primitives => exact everywhere_primitive.2 trivial
    | arrays n m items => exact everywhere_array.2 ⟨trivial, hj.tidy ha.items hb.items items⟩

theorem allTidy_branch {t b : Schema} (h : t.AllTidy) (hb : b ∈ t.branches) : b.AllTidy := by
  cases t with
  | union bs => exact h.branch hb
  | _ => cases List.mem_singleton.1 hb; exact h

theorem isUnion_branch {t b : Schema} (h : t.AllTidy) (hb : b ∈ t.branches) :
    b.isUnion = false := by
  cases t with
  | union bs => exact h.self.2.1 b hb
  | _ => cases List.mem_singleton.1 hb; rfl

theorem allTidy_wrapped {r : Record} {b : Schema} (h : r.schema.AllTidy)
    (wrapped : r.wrapped? = some b) : b.AllTidy := by
  obtain ⟨tag, wraps⟩ := Record.wraps_of_wrapped? wrapped
  cases wraps with
  | primitive => exact everywhere_primitive.2 trivial
  | @array _ _ n items =>
    have part : (Schema.array n items).AllTidy := h.field (f := tag) (by simp)
    exact everywhere_array.2 ⟨trivial, part.items⟩
  | record => exact h.field (f := tag) (by simp)

section Assembly
variable {ts : List Schema} {c : Schema}

/-- A record that is the only branch of a table is one of the records that are placed in it. -/
theorem mem_of_placement {P : Schema → Prop} {sources bs : List Schema} {rs : List Record}
    {table final : BranchTable} {r : Record}
    (holds : BranchTable.Holds P (fun s c => s.isCompound = false → c.isCompound = false)
      sources table)
    (plain : ∀ s ∈ sources, s.isCompound = false) (placed : BranchTable.Placement table rs bs)
    (named : ∀ r ∈ rs, r.FieldsNamed) (apart : rs.Pairwise fun r q => r.overlaps q = false)
    (total : BranchTable.Holds P (fun s c => s.isCompound = false → c.isCompound = false)
      (sources ++ bs) final)
    (single : final = [(r.schema.slot, r.schema)]) : r ∈ rs := by
  have only {k : Slot} {b : Schema} := total.get?_of_single single (k := k) (b := b)
  have added : r.schema ∈ bs := by
    have mem := total.compound r.schema.slot r.schema (only.2 ⟨rfl, rfl⟩) rfl
    refine (List.mem_append.1 mem).resolve_left fun hs => ?_
    cases plain _ hs
  cases placed with
  | record free =>
    have same := congrArg record? (List.mem_singleton.1 added)
    simpa using same
  | @held q b wrapped held =>
    obtain ⟨d, held⟩ := Option.isSome_iff_exists.1 held
    obtain ⟨s, hs, _⟩ := holds.source _ _ held
    obtain ⟨d, found, stays⟩ := total.covers s (List.mem_append_left _ hs)
    have compound := stays (plain s hs)
    rw [(only.1 found).2] at compound
    cases compound
  | wrapped several wrapped =>
    rcases total.eq_number several wrapped named apart fun k b found => (only.1 found).1 with
      rfl | number
    · cases added
    · cases number

include hj in
/-- A union that is put together of tidy types is tidy, and a record only if it is one of them. -/
theorem tidy_assembleUnion (good : ∀ t ∈ ts, t.AllTidy) (h : assembleUnion j ts = .ok c) :
    c.AllTidy ∧ ∀ r : Record, c = r.schema → ∃ q ∈ recordParts ts, q.name = r.name := by
  obtain ⟨plain, rs, table, final, hplain, hrs, htable, hfinal, rfl⟩ := assembleUnion_eq_ok.1 h
  have parts : ∀ p ∈ compoundParts ts, p.AllTidy ∧ p.isUnion = false :=
    forall_mem_compoundParts fun t ht b hb =>
      ⟨allTidy_branch (good t ht) hb, isUnion_branch (good t ht) hb⟩
  have simple := forall_mem_simpleParts parts
    (hj.widens.forall_mem_plainBranch (fun t ht => good t (mem_plainParts.1 ht).1) hplain)
  have records := forall_mem_recordParts parts
  have clusters := hj.tidy_clusters records hrs
  have apart := Record.pairwise_clusters hrs
  have named : ∀ r ∈ rs, r.FieldsNamed := fun r hr => (allTidy_record.1 (clusters r hr).1).1.2
  have holds := BranchTable.holds_of_foldlM hj.widens (fun p hp => (simple p hp).1)
    (fun p hp => (simple p hp).2) htable
  obtain ⟨bs, placed, total⟩ := holds.addClusters hj.widens (fun p hp => (simple p hp).2)
    (fun r hr => (clusters r hr).1) (fun r hr b => allTidy_wrapped (clusters r hr).1) named apart
    hfinal
  generalize hc : final.schema = c
  have assembled := total.assembled
  rw [hc] at assembled
  cases assembled with
  | nothing =>
    refine ⟨everywhere_primitive.2 trivial, fun r heq => ?_⟩
    cases heq
  | only single =>
    refine ⟨total.keeps c.slot c ((total.get?_of_single single).2 ⟨rfl, rfl⟩), ?_⟩
    rintro r rfl
    have hr := mem_of_placement holds (fun p hp => (simple p hp).2) placed named apart total single
    obtain ⟨_, q, hq, name⟩ := clusters r hr
    exact ⟨q, hq, name⟩
  | @union bs several perm ascend distinct =>
    have entry {b : Schema} (hb : b ∈ bs) : ∃ k, Keyed.get? k final = some b := by
      obtain ⟨⟨k, d⟩, hmem, rfl⟩ := List.mem_map.1 (perm.mem_iff.1 hb)
      exact ⟨k, total.mem_iff.1 hmem⟩
    refine ⟨everywhere_union.2 ⟨⟨?_, fun b hb => ?_, ascend, distinct⟩, fun b hb => ?_⟩,
      fun r heq => ?_⟩
    · rw [perm.length_eq, List.length_map]
      exact several
    · obtain ⟨k, found⟩ := entry hb
      exact total.flat k b found
    · obtain ⟨k, found⟩ := entry hb
      exact total.keeps k b found
    · cases heq

include hj in
/-- The join of tidy types is tidy, and a record only if it has the name of one among them. -/
theorem tidy_joinAllWith (good : ∀ t ∈ ts, t.AllTidy) (h : Strict.joinAllWith j ts = .ok c) :
    c.AllTidy ∧ ∀ r : Record, c = r.schema →
      ∃ q ∈ recordParts (Strict.candidates ts), q.name = r.name := by
  have good : ∀ t ∈ Strict.candidates ts, t.AllTidy := fun t ht =>
    good t (Strict.mem_candidates.1 ht).1
  cases joinedAll_of_joinAllWith h with
  | plain plain joined =>
    obtain ⟨tidy, plain, _⟩ :=
      Widens.joinList_or_null hj.widens (everywhere_primitive.2 trivial) good plain joined
    refine ⟨tidy, ?_⟩
    rintro r rfl
    cases plain
  | @record rs r records clusters eq =>
    subst eq
    rw [records] at good ⊢
    obtain ⟨tidy, q, hq, name⟩ := hj.tidy_clusters
      (fun r hr => good _ (List.mem_map_of_mem hr)) clusters r List.mem_cons_self
    refine ⟨tidy, fun r' heq => ⟨q, ?_, name.trans (congrArg Record.name ?_)⟩⟩
    · exact mem_recordParts.2 ⟨q.schema, List.mem_map_of_mem hq, rfl, List.mem_cons_self⟩
    · simpa using congrArg record? heq
  | union _ _ assembled => exact hj.tidy_assembleUnion good assembled

end Assembly

end TidyJoin

namespace Strict

/--
Whether no record gets another name where the join of `a` and `b` is `c`: a union does not
collapse into a record, unless it is joined with a record of the same name.
-/
def keepsName (a b : Schema) : Schema → Bool
  | .record name _ => (a.isUnion = false && b.isUnion = false) ||
      a.isRecordNamed name || b.isRecordNamed name
  | _ => true

theorem flat_of_keepsName {a b : Schema} {r : Record} (kept : keepsName a b r.schema = true) :
    (∀ t ∈ [a, b], t.isUnion = false) ∨
      ∃ q : Record, q.name = r.name ∧ (a = q.schema ∨ b = q.schema) := by
  simp only [keepsName, Record.schema, Bool.or_eq_true, Bool.and_eq_true, decide_eq_true_eq] at kept
  rcases kept with (flat | named) | named
  · exact .inl (forall_mem_pair.2 flat)
  · obtain ⟨q, name, rfl⟩ := exists_of_isRecordNamed named
    exact .inr ⟨q, name, .inl rfl⟩
  · obtain ⟨q, name, rfl⟩ := exists_of_isRecordNamed named
    exact .inr ⟨q, name, .inr rfl⟩

/--
A join keeps schemas tidy if its steps are those of a join that does, and no record gets
another name.
-/
theorem tidyJoin_joinWith {j : Join} (hj : TidyJoin j) {a b c : Schema} (ha : a.AllTidy)
    (hb : b.AllTidy) (h : joinWith j a b = .ok c) (kept : keepsName a b c = true) :
    c.AllTidy ∧ ∀ r : Record, c = r.schema →
      ∃ q : Record, q.name = r.name ∧ (a = q.schema ∨ b = q.schema) := by
  cases joined_of_joinWith h with
  | same => exact ⟨ha, fun r heq => ⟨r, rfl, .inl heq⟩⟩
  | nullLeft => exact ⟨hb, fun r heq => ⟨r, rfl, .inr heq⟩⟩
  | nullRight => exact ⟨ha, fun r heq => ⟨r, rfl, .inl heq⟩⟩
  | collection ne fulla fullb joined =>
    obtain ⟨tidy, record⟩ := hj.tidy_joinAllWith (forall_mem_pair.2 ⟨ha, hb⟩) joined
    refine ⟨tidy, fun r heq => ?_⟩
    subst heq
    rcases flat_of_keepsName kept with flat | found
    case inr => exact found
    obtain ⟨q, hq, name⟩ := record r rfl
    rw [candidates_pair ne fulla fullb] at hq
    obtain ⟨t, ht, compound, hmem⟩ := mem_recordParts.1 hq
    have same : q.schema = t := by
      have flat := flat t ht
      cases t with
      | union => cases flat
      | _ => exact List.mem_singleton.1 hmem
    refine ⟨q, name, ?_⟩
    rw [same]
    exact (show t = a ∨ t = b by simpa using ht).imp Eq.symm Eq.symm
  | plain joined =>
    obtain ⟨tidy, _⟩ := hj.widens.join ha hb joined
    refine ⟨tidy, ?_⟩
    rintro r rfl
    cases (isCompound_of_joinPlain joined).2.2

theorem tidyJoin_joinUnderWithin {allowed : Schema → Schema → Schema → Bool}
    (kept : ∀ a b c, allowed a b c = true → keepsName a b c = true) (level : Nat) :
    TidyJoin (joinUnderWithin allowed level) := by
  induction level with
  | zero => exact ⟨fun _ _ => nofun, fun _ _ => nofun⟩
  | succ level ih =>
    refine ⟨fun ha hb h => ?_, fun ha hb h => ?_⟩
    · obtain ⟨joined, allowed⟩ := joinUnderWithin_succ_eq_ok.1 h
      exact (tidyJoin_joinWith ih ha hb joined (kept _ _ _ allowed)).1
    · obtain ⟨joined, allowed⟩ := joinUnderWithin_succ_eq_ok.1 h
      exact (tidyJoin_joinWith ih ha hb joined (kept _ _ _ allowed)).2 _ rfl

theorem tidyJoin_joinUnder : TidyJoin (joinUnder keepsName) where
  tidy ha hb h := (tidyJoin_joinUnderWithin (fun _ _ _ => id) _).tidy ha hb h
  record ha hb h := (tidyJoin_joinUnderWithin (fun _ _ _ => id) _).record ha hb h

/--
What is asked of an array: where its types are joined, no record gets another name, or there
is no union in what they are joined to and its records are named after their fields.
-/
def KeepsNames (types : List Schema) : Prop :=
  JoinsUnder keepsName types ∨
    ∀ items, joinAllWith join types = .ok items → items.UnionFree ∧ items.AllTidy

end Strict

/-- Whether a schema is tidy and, if it is a record, called `name`. -/
def Schema.TidyNamed (name : Text) (t : Schema) : Prop :=
  t.AllTidy ∧ ∀ r : Record, t = r.schema → r.name = name

/-- Inference keeps that schemas are tidy and records have the name of their place. -/
theorem inferenceInvariant_tidyNamed {settings : Settings} (strict : settings.mode = .strict) :
    InferenceInvariant settings (fun _ => Strict.KeepsNames) fun name _ t =>
      t.TidyNamed name where
  scalar name s k _ := ⟨everywhere_primitive.2 trivial, nofun⟩
  object name members fields _ parts := by
    have part {f : Text} {t : Schema} (found : (Record.ofFields name fields).field? f = some t) :
        t.TidyNamed f := by
      obtain ⟨_, _, h⟩ :=
        exists_member_of_field? (S := fun name _ t => t.TidyNamed name) parts found
      exact h
    refine ⟨allTidy_record.2 ⟨⟨Record.ascending_sortFields fields, fun f m gs found => ?_⟩,
      fun f t found => (part found).1⟩, fun r heq => ?_⟩
    · exact (part found).2 ⟨m, gs⟩ rfl
    · have same := congrArg record? heq
      simp only [Record.record?_schema, Option.some.injEq] at same
      rw [← same]
      rfl
  array name elements types items parts kept joined := by
    rw [strict] at joined
    refine ⟨everywhere_array.2 ⟨trivial, ?_⟩, nofun⟩
    rcases kept with under | free
    · refine (Strict.tidyJoin_joinUnder.tidy_joinAllWith (fun t ht => ?_) (under items joined)).1
      obtain ⟨v, _, tidy, _⟩ := exists_left_of_mem parts ht
      exact tidy
    · exact (free items joined).2

/--
Inferred schemas are orderly.  All their unions are proper, unless a union collapses into a
record of another name as the element types of an array are joined to a type with unions or
misnamed records.
-/
theorem properUnion_of_infer {settings : Settings} (strict : settings.mode = .strict)
    {name path : Text} {depth : Int} {v : Json} {t : Schema}
    (inferred : infer settings name path depth v = .ok t) :
    t.Orderly ∧
      (t.UnionFree ∨ v.EveryArray (fun _ => Strict.KeepsNames) settings name path depth →
        t.Everywhere ProperUnion) := by
  constructor
  · exact (inferenceInvariant_orderly strict).infer (v.everyArray_of_forall fun _ _ => trivial)
      inferred
  · rintro (free | kept)
    · exact free.imp fun _ => properUnion_of_flat
    · obtain ⟨tidy, _⟩ := (inferenceInvariant_tidyNamed strict).infer kept inferred
      exact tidy.imp fun _ => properUnion_of_tidy

/-- A union that is joined with another tagged wrapper takes it in and stays proper. -/
theorem properUnion_of_infer_wrapper :
    (Schema.array none (.array none (.union [.primitive .double, .primitive .string]))).Everywhere
      ProperUnion := by
  let mixed : List Json := [.object [("int", .integer 1)], .object [("string", .string "x")]]
  let wide : List Json := [.object [("double", .scalar (.real "1.5"))]]
  let wrapper (k : Kind) : Schema := .record "r" [(k.keyword, .primitive k)]
  let both (k : Kind) : Schema := .union [.primitive k, .primitive .string]
  have union (k : Kind) := unionOf_pair (.primitive k) (.primitive .string) rfl rfl
  have first : (Json.array mixed).EveryArray (fun _ => Strict.KeepsNames) {} "r" "r[0]" 1 := by
    have found : inferElements {} "r" "r[0]" 1 0 mixed =
      .ok [wrapper .int, wrapper .string] := rfl
    refine Json.everyArray_array_of_eq_ok found (.inl ?_)
      ⟨⟨trivial, trivial⟩, ⟨trivial, trivial⟩, trivial⟩
    exact Strict.joinsUnder_of_eq_ok (both .int) (congrArg Except.ok (union .int rfl))
      (congrArg Except.ok (union .int rfl))
  have second : (Json.array wide).EveryArray (fun _ => Strict.KeepsNames) {} "r" "r[1]" 1 := by
    have found : inferElements {} "r" "r[1]" 1 0 wide = .ok [wrapper .double] := rfl
    refine Json.everyArray_array_of_eq_ok found (.inl ?_) ⟨⟨trivial, trivial⟩, trivial⟩
    exact Strict.joinsUnder_of_eq_ok (wrapper .double) rfl rfl
  have found : inferElements {} "r" "r" 0 0 [.array mixed, .array wide] =
      .ok [.array none (both .int), .array none (wrapper .double)] :=
    congrArg (fun u => Except.ok [Schema.array none u, .array none (wrapper .double)])
      (union .int rfl)
  have joined : Strict.joinAllWith Strict.join
      [.array none (both .int), .array none (wrapper .double)] = .ok (.array none (both .double)) :=
    Strict.joinAllWith_arrays (by decide) (congrArg Except.ok (union .double rfl))
  have kept : (Json.array [.array mixed, .array wide]).EveryArray
      (fun _ => Strict.KeepsNames) {} "r" "r" 0 := by
    refine Json.everyArray_array_of_eq_ok found (.inl ?_) ⟨first, second, trivial⟩
    refine Strict.joinsUnder_of_eq_ok _ joined ?_
    exact Strict.joinAllWith_arrays (by decide) (congrArg Except.ok (union .double rfl))
  have inferred : infer {} "r" "r" 0 (.array [.array mixed, .array wide]) =
      .ok (.array none (.array none (both .double))) :=
    infer_array_eq_ok.2 ⟨by decide, _, _, found, joined, rfl⟩
  exact (properUnion_of_infer rfl inferred).2 (.inr kept)

/--
Where a union of two records collapses into one of them, that record keeps the name of its
tag.  Unpacked below another name it is joined to a number in the slot of a record, and the
union of the numbers has two branches with one label.
-/
theorem exists_infer_not_properUnion : ∃ t : Schema,
    infer {} "r" "r" 0 (.array [.object [("f", .object [("a", .object [("int", .integer 1)])])],
      .object [("f", .object [("b", .object [("int", .integer 1)])])],
      .object [("f", .object [("int", .integer 1)])],
      .object [("a", .object [("long", .integer 1)])], .object [("long", .integer 1)]]) = .ok t ∧
    ¬ t.Everywhere ProperUnion := by
  let tagged (tag : Text) (k : Kind) : Schema := .record tag [(k.keyword, .primitive .int)]
  let row (t : Schema) : Record := ⟨"r", [("f", t)]⟩
  let apart : List Record := [⟨"r", [("a", tagged "a" .long)]⟩, ⟨"r", [("long", .primitive .int)]⟩]
  let types : List Record := [row (.record "f" [("a", tagged "a" .int)]),
    row (.record "f" [("b", tagged "b" .int)]), row (tagged "f" .int)]
  have first : Strict.join (.record "f" [("a", tagged "a" .int)])
      (.record "f" [("b", tagged "b" .int)]) = .ok (.union [tagged "a" .int, tagged "b" .int]) :=
    congrArg Except.ok (unionOf_pair _ _ rfl rfl rfl)
  have second : Strict.join (.union [tagged "a" .int, tagged "b" .int]) (tagged "f" .int) =
      .ok (tagged "a" .int) := rfl
  have overlapping : Record.clusters Strict.join types = .ok [row (tagged "a" .int)] := by
    rw [Record.clusters_of_overlapping (by decide)]
    simp only [List.foldlM_cons, List.foldlM_nil, Record.merge_of_one_field first,
      Record.merge_of_one_field second, row, bind, Except.bind, pure, Except.pure, Except.map]
  have clusters : Record.clusters Strict.join (types ++ apart) =
      .ok (row (tagged "a" .int) :: apart) := by
    rw [Record.clusters] at overlapping ⊢
    rw [List.foldlM_append, overlapping]
    rfl
  have joined : Strict.joinAllWith Strict.join ((types ++ apart).map Record.schema) =
      .ok (.union [.primitive .long, .primitive .long]) := by
    have distinct : Strict.candidates ((types ++ apart).map Record.schema) =
        (types ++ apart).map Record.schema := by decide +kernel
    refine (Strict.joinAllWith_of_records distinct).trans ?_
    change Strict.joinRecords Strict.join (types ++ apart) = _
    rw [Strict.joinRecords, clusters]
    refine assembleUnion_eq_ok.2 ⟨[], _, [], _, rfl, clusters, rfl, rfl, ?_⟩
    exact (unionOf_pair _ _ rfl rfl rfl).symm
  refine ⟨.array none (.union [.primitive .long, .primitive .long]), ?_, fun h => ?_⟩
  · exact infer_array_eq_ok.2 ⟨by decide, _, _, rfl, joined, rfl⟩
  · exact absurd h.items.self.distinct (by decide)

end SchemaInference
