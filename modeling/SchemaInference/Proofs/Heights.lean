import SchemaInference.Proofs.Assembly

/-!
# Heights

What the rules of the strict join make of types in which no union is a branch of another
is no higher than these types, and they call for joins of lower types only: two joins that
agree below a height lead to the same outcomes at that height.
-/

namespace SchemaInference

open Schema

namespace Schema

/-- Whether a schema is no union or a union that has no union among its branches. -/
def HasFlatBranches : Schema → Prop
  | .union branches => ∀ b ∈ branches, b.isUnion = false
  | _ => True

instance : DecidablePred HasFlatBranches
  | .union branches => inferInstanceAs (Decidable (∀ b ∈ branches, b.isUnion = false))
  | .primitive _ | .array .. | .record .. => inferInstanceAs (Decidable True)

/-- Whether no union in a schema is a branch of another. -/
abbrev FlatUnions (t : Schema) : Prop := t.Everywhere HasFlatBranches

/-- A schema that is at most `h` high and in which no union is a branch of another. -/
structure Low (h : Nat) (t : Schema) : Prop where
  flat : t.FlatUnions
  height : t.height ≤ h

section Low
variable {h k : Nat} {s t b : Schema} {fields : List (Text × Schema)}

theorem Low.mono (low : Low h t) (le : h ≤ k) : Low k t :=
  ⟨low.flat, Nat.le_trans low.height le⟩

theorem low_primitive (h : Nat) (kind : Kind) : Low h (.primitive kind) :=
  ⟨everywhere_primitive.2 trivial, by simp [Schema.height]⟩

theorem low_array {n : Option Text} : Low (h + 1) (.array n t) ↔ Low h t := by
  constructor
  · intro low
    have le := low.height
    simp only [Schema.height] at le
    exact ⟨low.flat.items, by omega⟩
  · intro low
    have le := low.height
    refine ⟨everywhere_array.2 ⟨trivial, low.flat⟩, ?_⟩
    simp only [Schema.height]
    omega

theorem fieldsHeight_le_iff : fieldsHeight fields ≤ h ↔ ∀ e ∈ fields, e.2.height ≤ h := by
  induction fields with
  | nil => simp [fieldsHeight]
  | cons e rest ih =>
    rw [List.forall_mem_cons, ← ih]
    simp only [fieldsHeight]
    omega

theorem branchesHeight_le_iff {ts : List Schema} :
    branchesHeight ts ≤ h ↔ ∀ t ∈ ts, t.height ≤ h := by
  induction ts with
  | nil => simp [branchesHeight]
  | cons t rest ih =>
    rw [List.forall_mem_cons, ← ih]
    simp only [branchesHeight]
    omega

theorem low_record {n : Text} :
    Low (h + 1) (.record n fields) ↔ ∀ e ∈ fields, Low h e.2 := by
  constructor
  · intro low e he
    have le := low.height
    simp only [Schema.height, Nat.add_le_add_iff_right, fieldsHeight_le_iff] at le
    exact ⟨(everywhere_record.1 low.flat).2 e.1 e.2 he, le e he⟩
  · intro low
    refine ⟨everywhere_record.2 ⟨trivial, fun f t hmem => (low _ hmem).flat⟩, ?_⟩
    simp only [Schema.height, Nat.add_le_add_iff_right, fieldsHeight_le_iff]
    exact fun e he => (low e he).height

/-- Only a schema of some height is an array or a record. -/
theorem Low.exists_succ (low : Low h t) (parts : t.isCompound = true ∨ t.items?.isSome = true)
    (flat : t.isUnion = false) : ∃ k, h = k + 1 := by
  have le := low.height
  cases t with
  | primitive kind => simp [isCompound, items?] at parts
  | union bs => cases flat
  | array n items => simp only [Schema.height] at le; exact ⟨h - 1, by omega⟩
  | record n fields => simp only [Schema.height] at le; exact ⟨h - 1, by omega⟩

theorem Low.branch (low : Low h t) (hb : b ∈ t.branches) : Low h b ∧ b.isUnion = false := by
  cases t with
  | union bs =>
    have le := low.height
    simp only [Schema.height, branchesHeight_le_iff] at le
    exact ⟨⟨low.flat.branch hb, le b hb⟩, low.flat.self b hb⟩
  | _ => cases List.mem_singleton.1 hb; exact ⟨low, rfl⟩

theorem low_unionOf {members : List Schema} (low : ∀ m ∈ members, Low h m) :
    Low h (unionOf members) := by
  have parts : ∀ b ∈ (members.flatMap branches).mergeSort
      (fun a b => a.branchLabel.le b.branchLabel), Low h b ∧ b.isUnion = false := by
    intro b hb
    obtain ⟨m, hm, hbm⟩ := List.mem_flatMap.1 ((List.mergeSort_perm _ _).mem_iff.1 hb)
    exact (low m hm).branch hbm
  refine ⟨everywhere_union.2 ⟨fun b hb => (parts b hb).2, fun b hb => (parts b hb).1.flat⟩, ?_⟩
  simp only [unionOf, Schema.height, branchesHeight_le_iff]
  exact fun b hb => (parts b hb).1.height

theorem Low.wrapped {r : Record} (low : Low h r.schema) (wrapped : r.wrapped? = some b) :
    ∃ k < h, Low k b := by
  obtain ⟨tag, wraps⟩ := Record.wraps_of_wrapped? wrapped
  obtain ⟨k, rfl⟩ := low.exists_succ (.inl rfl) rfl
  have parts := low_record.1 low
  refine ⟨k, by omega, ?_⟩
  cases wraps with
  | primitive => exact low_primitive k _
  | @array name tag n items =>
    have part : Low k (.array n items) := parts (tag, _) List.mem_cons_self
    obtain ⟨m, rfl⟩ := part.exists_succ (.inr rfl) rfl
    exact low_array.2 (low_array.1 part)
  | @record name tag m fields => exact parts (tag, _) List.mem_cons_self

/-- A schema that is at most `h` high and no record or union. -/
def LowPlain (h : Nat) (t : Schema) : Prop := Low h t ∧ t.isCompound = false

/-- A schema that is at most `h` high, and lower than `n` if it is a record. -/
def LowBranch (n h : Nat) (t : Schema) : Prop :=
  Low h t ∧ (t.record?.isSome = true → t.height < n)

theorem LowPlain.not_record (plain : LowPlain h t) : ¬t.record?.isSome = true := by
  have flat := plain.2
  cases t with
  | record => cases flat
  | _ => exact nofun

theorem LowPlain.branch (n : Nat) (plain : LowPlain h t) : LowBranch n h t :=
  ⟨plain.1, fun isRecord => absurd isRecord plain.not_record⟩

end Low

end Schema

/--
Two joins of types that are lower than `n` have the same outcomes, which are no higher than
what is joined.
-/
def Settled (n : Nat) (j j' : Join) : Prop :=
  ∀ h < n, ∀ a b, Low h a → Low h b → Agreed (Low h) (j a b) (j' a b)

namespace Settled
variable {n h : Nat} {j j' : Join} (hj : Settled n j j') (deep : h ≤ n)

include hj deep

theorem joinPlain {mode : Mode} {a b : Schema} (ha : Low h a) (hb : Low h b) :
    Agreed (LowPlain h) (joinPlain mode j a b) (joinPlain mode j' a b) := by
  cases a with
  | primitive k =>
    cases b with
    | primitive l =>
      simp only [SchemaInference.joinPlain]
      split
      · exact .ok ⟨low_primitive h _, rfl⟩
      · exact .error _
    | _ => exact .error _
  | array n s =>
    cases b with
    | array m t =>
      obtain ⟨k, rfl⟩ := ha.exists_succ (.inr rfl) rfl
      simp only [SchemaInference.joinPlain]
      apply (hj k (by omega) s t (low_array.1 ha) (low_array.1 hb)).map
      exact fun u hu => ⟨low_array.2 hu, rfl⟩
    | _ => exact .error _
  | _ => cases b <;> exact .error _

omit hj deep in
theorem joinList {P : Schema → Prop} {ts : List Schema} (null : P .null)
    (step : ∀ a b, P a → P b → Agreed P (j a b) (j' a b)) (low : ∀ t ∈ ts, P t) :
    Agreed P (joinList j ts) (joinList j' ts) := by
  cases ts with
  | nil => exact .ok null
  | cons t rest =>
    apply Agreed.foldlM (low t List.mem_cons_self)
    intro s hs c hc
    exact step c s hc (low s (List.mem_cons_of_mem _ hs))

section Records

omit deep in
theorem mergeFields (lower : h < n) {owner : Text} {present added : List (Text × Schema)}
    (hp : ∀ e ∈ present, Low h e.2) (ha : ∀ e ∈ added, Low h e.2) :
    Agreed (fun fields => ∀ e ∈ fields, Low h e.2) (Record.mergeFields j owner present added)
      (Record.mergeFields j' owner present added) := by
  induction added generalizing present with
  | nil => exact .ok hp
  | cons entry rest ih =>
    obtain ⟨name, t⟩ := entry
    obtain ⟨ht, hrest⟩ := List.forall_mem_cons.1 ha
    have put (u : Schema) (hu : Low h u) : ∀ e ∈ Record.putField name u present, Low h e.2 := by
      intro e he
      rcases Record.mem_of_mem_putField _ _ he with rfl | he
      · exact hu
      · exact hp e he
    simp only [Record.mergeFields]
    split
    · exact ih (put t ht) hrest
    · next s found =>
      have outcome := hj h lower s t (hp _ (mem_of_lookup found)) ht
      generalize j s t = x, j' s t = y at outcome
      cases outcome with
      | ok hu => exact ih (put _ hu) hrest
      | error e => exact .error _

theorem merge {a b : Record} (ha : Low h a.schema) (hb : Low h b.schema) :
    Agreed (fun c => Low h c.schema) (a.merge j b) (a.merge j' b) := by
  obtain ⟨k, rfl⟩ := ha.exists_succ (.inl rfl) rfl
  refine (hj.mergeFields (h := k) (by omega) (fun e he => ?_) (low_record.1 hb)).map ?_
  · exact low_record.1 ha e (Record.mem_of_mem_sortFields he)
  · exact fun fields low => low_record.2 low

theorem absorb {r : Record} {present : List Record} (hr : Low h r.schema)
    (hp : ∀ p ∈ present, Low h p.schema) :
    Agreed (fun found => (∀ o ∈ found.1, Low h o.schema) ∧ Low h found.2.schema)
      (Record.absorb j r present) (Record.absorb j' r present) := by
  induction present generalizing r with
  | nil => exact .ok ⟨by simp, hr⟩
  | cons c rest ih =>
    obtain ⟨hc, hrest⟩ := List.forall_mem_cons.1 hp
    simp only [Record.absorb]
    split
    · have outcome := hj.merge deep hc hr
      generalize c.merge j r = x, c.merge j' r = y at outcome
      cases outcome with
      | ok hm => exact ih hm hrest
      | error e => exact .error e
    · have outcome := ih hr hrest
      generalize Record.absorb j r rest = x, Record.absorb j' r rest = y at outcome
      cases outcome with
      | ok low => exact .ok ⟨List.forall_mem_cons.2 ⟨hc, low.1⟩, low.2⟩
      | error e => exact .error e

theorem clusters {rs : List Record} (low : ∀ r ∈ rs, Low h r.schema) :
    Agreed (fun cs => ∀ c ∈ cs, Low h c.schema) (Record.clusters j rs)
      (Record.clusters j' rs) := by
  apply Agreed.foldlM (by simp)
  intro r hr present hp
  have outcome := hj.absorb deep (low r hr) hp
  simp only [Record.addToClusters]
  generalize Record.absorb j r present = x, Record.absorb j' r present = y at outcome
  cases outcome with
  | ok low =>
    exact .ok (List.forall_mem_append.2 ⟨low.1, List.forall_mem_singleton.2 low.2⟩)
  | error e => exact .error e

end Records

section Tables
variable {table : BranchTable} {added : Schema} {P : Schema → Prop}

omit hj deep in
/-- Adding a branch, in terms of the joins of that branch with what its slot holds. -/
theorem add (hp : ∀ e ∈ table, P e.2) (ha : P added)
    (plain : ∀ e ∈ table, Agreed P (SchemaInference.joinPlain .strict j e.2 added)
      (SchemaInference.joinPlain .strict j' e.2 added))
    (records : added.record?.isSome = true → ∀ e ∈ table, e.2.record?.isSome = true →
      Agreed P (j e.2 added) (j' e.2 added)) :
    Agreed (fun next : BranchTable => ∀ e ∈ next, P e.2) (table.add j added)
      (table.add j' added) := by
  have put {b : Schema} (hb : P b) : ∀ e ∈ Keyed.put added.slot b table, P e.2 := by
    intro e he
    rcases Keyed.mem_of_mem_put he with rfl | he
    · exact hb
    · exact hp e he
  have settle {present : Schema} {x y : Except Disagreement Schema} (outcome : Agreed P x y) :
      Agreed (fun next : BranchTable => ∀ e ∈ next, P e.2)
        (BranchTable.settle table added.slot present added x)
        (BranchTable.settle table added.slot present added y) := by
    cases outcome with
    | @ok c hc =>
      cases c with
      | union bs => exact .error _
      | _ => exact .ok (put hc)
    | error e => exact .error _
  simp only [BranchTable.add]
  cases held : Keyed.get? added.slot table with
  | none => exact .ok (put ha)
  | some present =>
    have hmem := Keyed.mem_of_get?_eq_some held
    cases present with
    | record n fs =>
      cases added with
      | record m gs => exact settle (records rfl _ hmem rfl)
      | _ => exact .error _
    | union bs => exact .error _
    | _ =>
      cases added with
      | primitive | array =>
        first
          | exact settle (plain _ hmem)
          | exact .error _
      | _ => exact .error _

theorem addPlain {parts : List Schema} (low : ∀ p ∈ parts, LowPlain h p) :
    Agreed (fun next : BranchTable => ∀ e ∈ next, LowPlain h e.2)
      (parts.foldlM (BranchTable.add j) []) (parts.foldlM (BranchTable.add j') []) := by
  apply Agreed.foldlM (by simp)
  intro p hp table htable
  apply add htable (low p hp)
  · intro e he
    exact hj.joinPlain deep (htable e he).1 (low p hp).1
  · intro isRecord
    exact absurd isRecord (low p hp).not_record

theorem addWrapped {rs : List Record} (hp : ∀ e ∈ table, LowBranch n h e.2)
    (low : ∀ r ∈ rs, Low h r.schema) :
    Agreed (fun next : BranchTable => ∀ e ∈ next, LowBranch n h e.2)
      (rs.foldlM (BranchTable.addWrapped j) table)
      (rs.foldlM (BranchTable.addWrapped j') table) := by
  apply Agreed.foldlM hp
  intro r hr present hp
  simp only [BranchTable.addWrapped]
  split
  · next b wrapped =>
    -- what is unpacked is lower than its wrapper, so that records still may be joined
    obtain ⟨k, lower, hb⟩ := (low r hr).wrapped wrapped
    have le := hb.height
    have hb' : LowBranch n h b := ⟨hb.mono (by omega), fun _ => by omega⟩
    apply add hp hb'
    · intro e he
      exact (hj.joinPlain deep (hp e he).1 hb'.1).imp fun c plain => plain.branch n
    · intro _ e he isRecord
      have lower' := (hp e he).2 isRecord
      have le' := (hp e he).1.height
      have outcome := hj (max e.2.height b.height) (by omega) e.2 b
        ⟨(hp e he).1.flat, by omega⟩ ⟨hb.flat, by omega⟩
      apply outcome.imp
      intro c hc
      have := hc.height
      exact ⟨hc.mono (by omega), fun _ => by omega⟩
  · exact .error _

theorem addClusters {rs : List Record} (hp : ∀ e ∈ table, LowPlain h e.2)
    (low : ∀ r ∈ rs, Low h r.schema) :
    Agreed (fun next : BranchTable => ∀ e ∈ next, Low h e.2) (table.addClusters j rs)
      (table.addClusters j' rs) := by
  have several : Agreed (fun next : BranchTable => ∀ e ∈ next, Low h e.2)
      (rs.foldlM (BranchTable.addWrapped j) table)
      (rs.foldlM (BranchTable.addWrapped j') table) := by
    apply (hj.addWrapped deep (fun e he => (hp e he).branch n) low).imp
    exact fun next hnext e he => (hnext e he).1
  rcases rs with _ | ⟨r, _ | ⟨q, rs⟩⟩
  · exact several
  · have hr := low r List.mem_cons_self
    have sole : Low h (table.soleBranch r) := by
      simp only [BranchTable.soleBranch]
      split
      · next b wrapped =>
        obtain ⟨k, lower, hb⟩ := hr.wrapped wrapped
        split
        · exact hb.mono (by omega)
        · exact hr
      · exact hr
    apply add (fun e he => (hp e he).1) sole
    · intro e he
      exact (hj.joinPlain deep (hp e he).1 sole).imp fun c plain => plain.1
    · intro _ e he isRecord
      exact absurd isRecord (hp e he).not_record
  · exact several

end Tables

section Unions
variable {ts : List Schema} (low : ∀ t ∈ ts, Low h t)

include low

theorem plainBranch : Agreed (fun bs => ∀ b ∈ bs, LowPlain h b) (plainBranch j ts)
    (plainBranch j' ts) := by
  have plain : ∀ t ∈ plainParts ts, LowPlain h t := by
    intro t ht
    obtain ⟨hmem, flat, -⟩ := mem_plainParts.1 ht
    exact ⟨low t hmem, flat⟩
  simp only [SchemaInference.plainBranch]
  generalize plainParts ts = parts at plain
  split
  · exact .ok (by simp)
  · refine (joinList ⟨low_primitive h _, rfl⟩ (fun a b ha hb => ?_) plain).map ?_
    · exact hj.joinPlain deep ha.1 hb.1
    · exact fun b hb => List.forall_mem_singleton.2 hb

theorem assembleUnion : Agreed (Low h) (assembleUnion j ts) (assembleUnion j' ts) := by
  have branches : ∀ p ∈ compoundParts ts, Low h p ∧ p.isUnion = false :=
    forall_mem_compoundParts fun t ht b hb => (low t ht).branch hb
  apply (hj.plainBranch deep low).bind
  intro plain hplain
  have records : ∀ r ∈ (compoundParts ts ++ plain).filterMap record?, Low h r.schema := by
    intro r hr
    rcases List.mem_append.1 (mem_filterMap_record?.1 hr) with hp | hp
    · exact (branches _ hp).1
    · exact (hplain _ hp).1
  have others : ∀ p ∈ (compoundParts ts ++ plain).filter (·.record?.isNone), LowPlain h p := by
    intro p hp
    obtain ⟨hp, noRecord⟩ := List.mem_filter.1 hp
    rcases List.mem_append.1 hp with hp | hp
    · obtain ⟨hlow, flat⟩ := branches p hp
      exact ⟨hlow, isCompound_eq_false (Option.isNone_iff_eq_none.1 noRecord) flat⟩
    · exact hplain p hp
  apply (hj.clusters deep records).bind
  intro clusters hclusters
  apply (hj.addPlain deep others).bind
  intro table htable
  apply (hj.addClusters deep htable hclusters).bind
  intro final hfinal
  refine .ok ?_
  have parts : ∀ b ∈ final.map Prod.snd, Low h b := List.forall_mem_map.2 hfinal
  unfold BranchTable.schema
  generalize final.map Prod.snd = bs at parts
  split
  · exact low_primitive h _
  · exact parts _ List.mem_cons_self
  · exact low_unionOf parts

theorem joinAllWith :
    Agreed (Low h) (Strict.joinAllWith j ts) (Strict.joinAllWith j' ts) := by
  have low : ∀ t ∈ Strict.candidates ts, Low h t := fun t ht =>
    low t (Strict.mem_candidates.1 ht).1
  unfold Strict.joinAllWith
  generalize Strict.candidates ts = cs at low
  unfold Strict.joinCandidates
  split
  · split
    · next rs found =>
      rw [mapM_record?_eq_some] at found
      subst found
      have records : ∀ r ∈ rs, Low h r.schema := List.forall_mem_map.1 low
      have outcome := hj.clusters deep records
      have union := hj.assembleUnion deep low
      unfold Strict.joinRecords
      generalize Record.clusters j rs = x, Record.clusters j' rs = y at outcome
      cases outcome with
      | error e => exact .error e
      | @ok clusters hclusters =>
        rcases clusters with _ | ⟨r, _ | ⟨q, rest⟩⟩
        · exact union
        · exact .ok (hclusters r List.mem_cons_self)
        · exact union
    · exact hj.assembleUnion deep low
  · next none =>
    have none : ∀ t ∈ cs, t.isCompound = false := by simpa using none
    have plain : ∀ t ∈ cs, LowPlain h t := fun t ht => ⟨low t ht, none t ht⟩
    apply (joinList ⟨low_primitive h _, rfl⟩ (fun a b ha hb => ?_) plain).imp fun c hc => hc.1
    exact hj.joinPlain deep ha.1 hb.1

end Unions

end Settled

end SchemaInference
