import SchemaInference.Failure
import SchemaInference.Join
import SchemaInference.Proofs.JoinOrder
import SchemaInference.Proofs.Naming
import SchemaInference.Proofs.ShapeClasses

/-!
# Strict joins of two types are symmetric

Which of two types comes first does not matter to their strict join, if they hold no unions
and their records are named by their place: either order gives the same type, or fails in
the same way.  Records that meet fail at the least field whose types do not join, and records
that do not meet are unpacked into slots of their own.
-/

namespace SchemaInference

open Schema

/-- Two evaluations that give the same or fail for reasons that are reported alike. -/
inductive SameOutcome {α : Type} : Except Disagreement α → Except Disagreement α → Prop where
  | ok (a : α) : SameOutcome (.ok a) (.ok a)
  | error {r s : Disagreement}
    (category : (Failure.disagreement r).category = (Failure.disagreement s).category)
    (field : r.field? = s.field?) : SameOutcome (.error r) (.error s)

namespace SameOutcome
variable {α β : Type} {x y : Except Disagreement α} {r s : Disagreement}

theorem of_field (field : r.field? = s.field?) :
    SameOutcome (Except.error r : Except Disagreement α) (.error s) := by
  refine .error ?_ field
  simp only [Failure.category, field]

theorem refl (x : Except Disagreement α) : SameOutcome x x := by
  cases x with
  | ok a => exact .ok a
  | error r => exact .of_field rfl

theorem symm (h : SameOutcome x y) : SameOutcome y x := by
  cases h with
  | ok a => exact .ok a
  | error category field => exact .error category.symm field.symm

theorem of_ok {a : α} (h : SameOutcome x y) (found : x = .ok a) : y = .ok a := by
  cases h with
  | ok b => exact found
  | error => cases found

theorem map (h : SameOutcome x y) (f : α → β) : SameOutcome (x.map f) (y.map f) := by
  cases h with
  | ok a => exact .ok (f a)
  | error category field => exact .error category field

/-- Evaluations have the same outcome if what either gives is given by the other. -/
theorem of_forall_ok (forward : ∀ a, x = .ok a → y = .ok a) (backward : ∀ a, y = .ok a → x = .ok a)
    (fail : ∀ r s, x = .error r → y = .error s → r.field? = s.field?) : SameOutcome x y := by
  cases x with
  | ok a => exact forward a rfl ▸ .ok a
  | error r =>
    cases y with
    | ok a => cases backward a rfl
    | error s => exact .of_field (fail r s rfl rfl)

end SameOutcome

/-- A schema without unions whose records are named by their place, `name` being its own. -/
structure Schema.PlainAt (name : Text) (t : Schema) : Prop extends t.Plain where
  follows : t.FollowsNaming name

namespace Schema.PlainAt
variable {name f : Text} {s t : Schema} {r : Record}

theorem items {n : Option Text} (h : PlainAt name (.array n t)) : PlainAt name t :=
  ⟨⟨canonical_array.1 h.canonical, unionFree_array.1 h.free⟩, (followsNaming_array.1 h.follows).2⟩

theorem ascending (h : PlainAt name r.schema) : Ascending r.fields :=
  (Record.canonical_schema.1 h.canonical).1

theorem field (h : PlainAt name r.schema) (found : r.field? f = some t) : PlainAt f t where
  canonical := (Record.canonical_schema.1 h.canonical).2 f t found
  free := h.free.field found
  follows := ((followsNaming_record h.ascending).1 h.follows).2 f t found

theorem fieldsNamed (h : PlainAt name r.schema) : r.FieldsNamed := by
  intro f m gs found
  have follows := (h.field found).follows
  rw [FollowsNaming] at follows
  exact follows.1

end Schema.PlainAt

/-- A join that is symmetric on schemas without unions whose height is below a level. -/
def SymmetricBelow (j : Join) (level : Nat) : Prop :=
  ∀ name a b, PlainAt name a → PlainAt name b → a.height < level → b.height < level →
    SameOutcome (j a b) (j b a)

namespace Record
variable {j : Join}

section Fields
variable {owner : Text} {present added : List (Text × Schema)}

theorem mergeFields_eq_error {e : Disagreement} (asc : Ascending added)
    (h : mergeFields j owner present added = .error e) :
    ∃ f s t, present.lookup f = some s ∧ added.lookup f = some t ∧
      (∃ reason, j s t = .error reason ∧ e = .incompatibleField owner f reason) ∧
      ∀ g s t, g < f → present.lookup g = some s → added.lookup g = some t →
        ∃ u, j s t = .ok u := by
  induction added generalizing present with
  | nil => cases h
  | cons entry rest ih =>
    obtain ⟨name, t⟩ := entry
    obtain ⟨least, later⟩ := List.pairwise_cons.1 asc
    -- what fails later is a failure of greater fields, which are not put here
    have skip (u : Schema) (here : ∀ s, present.lookup name = some s → ∃ u, j s t = .ok u)
        (h : mergeFields j owner (putField name u present) rest = .error e) :
        ∃ f s t', present.lookup f = some s ∧ ((name, t) :: rest).lookup f = some t' ∧
          (∃ reason, j s t' = .error reason ∧ e = .incompatibleField owner f reason) ∧
          ∀ g s t'', g < f → present.lookup g = some s → ((name, t) :: rest).lookup g = some t'' →
            ∃ u, j s t'' = .ok u := by
      obtain ⟨f, s, t', held, found, failed, lesser⟩ := ih later h
      have after : name < f := least _ (mem_of_lookup found)
      rw [lookup_putField, if_neg (Text.ne_of_lt after).symm] at held
      refine ⟨f, s, t', held, ?_, failed, fun g s t'' hg heldg foundg => ?_⟩
      · rw [lookup_cons_ite, if_neg (Text.ne_of_lt after).symm, found]
      · by_cases same : g = name
        · subst same
          rw [lookup_cons_ite, if_pos rfl] at foundg
          cases foundg
          exact here s heldg
        · rw [lookup_cons_ite, if_neg same] at foundg
          refine lesser g s t'' hg ?_ foundg
          rw [lookup_putField, if_neg same, heldg]
    simp only [mergeFields] at h
    split at h
    · next free => exact skip t (by simp [free]) h
    · next s held =>
      split at h
      · next u joined =>
        refine skip u (fun s' held' => ?_) h
        cases held.symm.trans held'
        exact ⟨u, joined⟩
      · next reason failed =>
        cases h
        refine ⟨name, s, t, held, by simp, ⟨reason, failed, rfl⟩, fun g s' t' hg _ found => ?_⟩
        rw [lookup_cons_ite, if_neg (Text.ne_of_lt hg)] at found
        exact absurd (Std.lt_trans hg (least _ (mem_of_lookup found))) Std.lt_irrefl

end Fields

variable {a b c : Record}

/-- Whether the shared fields of two records have joins with symmetric outcomes. -/
def SymmetricFields (j : Join) (a b : Record) : Prop :=
  ∀ f s t, a.field? f = some s → b.field? f = some t → SameOutcome (j s t) (j t s)

theorem SymmetricFields.symm (h : SymmetricFields j a b) : SymmetricFields j b a :=
  fun f s t hs ht => (h f t s ht hs).symm

theorem merge_symm (ha : Ascending a.fields) (hb : Ascending b.fields) (name : a.name = b.name)
    (fields : SymmetricFields j a b) (h : a.merge j b = .ok c) : b.merge j a = .ok c := by
  obtain ⟨named, asc, column⟩ := merge_spec h ha hb
  have back {s t u : Schema} {f : Text} (hs : a.field? f = some s) (ht : b.field? f = some t)
      (joined : j s t = .ok u) : j t s = .ok u := (fields f s t hs ht).of_ok joined
  obtain ⟨d, merged⟩ : ∃ d, b.merge j a = .ok d := by
    refine exists_merge hb ha fun f t s ht hs => ?_
    have joined := column f
    rw [hs, ht] at joined
    generalize c.field? f = found at joined
    cases joined with
    | both joined => exact ⟨_, back hs ht joined⟩
  obtain ⟨named', asc', column'⟩ := merge_spec merged hb ha
  have names : c.name = d.name := by rw [named, named', name]
  rw [merged, eq_of_ascending asc asc' names fun f => ?_]
  have here := column f
  have there := column' f
  have back {s t u : Schema} := back (s := s) (t := t) (u := u) (f := f)
  generalize a.field? f = left, b.field? f = right, c.field? f = found, d.field? f = found'
    at here there back ⊢
  cases here with
  | absent => cases there; rfl
  | left => cases there; rfl
  | right => cases there; rfl
  | both joined =>
    cases there with
    | both joined' =>
      exact congrArg some (Except.ok.inj ((back rfl rfl joined).symm.trans joined'))

theorem merge_eq_error {e : Disagreement} (ha : Ascending a.fields) (hb : Ascending b.fields)
    (h : a.merge j b = .error e) :
    ∃ f s t, a.field? f = some s ∧ b.field? f = some t ∧
      (∃ reason, j s t = .error reason ∧ e = .incompatibleField a.name f reason) ∧
      ∀ g s t, g < f → a.field? g = some s → b.field? g = some t → ∃ u, j s t = .ok u := by
  unfold merge at h
  rw [sortFields_of_ascending ha] at h
  cases merged : mergeFields j a.name a.fields b.fields with
  | ok fields => rw [merged] at h; cases h
  | error e' =>
    rw [merged] at h
    cases h
    exact mergeFields_eq_error hb merged

/-- Records of one name merge in either order, or fail at the same field. -/
theorem merge_sameOutcome (ha : Ascending a.fields) (hb : Ascending b.fields)
    (name : a.name = b.name) (fields : SymmetricFields j a b) :
    SameOutcome (a.merge j b) (b.merge j a) := by
  refine .of_forall_ok (fun c => merge_symm ha hb name fields)
    (fun c => merge_symm hb ha name.symm fields.symm) fun e e' failed failed' => ?_
  obtain ⟨f, s, t, hs, ht, ⟨reason, clash, rfl⟩, lesser⟩ := merge_eq_error ha hb failed
  obtain ⟨g, u, v, hu, hv, ⟨reason', clash', rfl⟩, lesser'⟩ := merge_eq_error hb ha failed'
  -- neither field is less than the other, as its types would join then
  rcases Std.lt_trichotomy f g with less | same | less
  · obtain ⟨w, joined⟩ := lesser' f t s less ht hs
    have outcome := fields f s t hs ht
    rw [clash, joined] at outcome
    cases outcome
  · exact congrArg some same
  · obtain ⟨w, joined⟩ := lesser g v u less hv hu
    have outcome := fields g v u hv hu
    rw [clash', joined] at outcome
    cases outcome

end Record

namespace BranchTable
variable {j : Join} {table : BranchTable} {e : Disagreement}

/-- What keeps a branch out of a table is no disagreement about a field of its own. -/
theorem field?_eq_none_of_add {added : Schema} (h : table.add j added = .error e) :
    e.field? = none := by
  have settled {present : Schema} {outcome : Except Disagreement Schema}
      (h : settle table added.slot present added outcome = .error e) : e.field? = none := by
    cases outcome with
    | error reason => cases h; rfl
    | ok c =>
      cases c with
      | union bs => cases h; rfl
      | _ => cases h
  simp only [add] at h
  split at h
  · cases h
  · split at h
    · exact settled h
    · exact settled h
    · exact settled h
    · cases h
      rfl

theorem field?_eq_none_of_addWrapped {rs : List Record}
    (h : rs.foldlM (addWrapped j) table = .error e) : e.field? = none := by
  induction rs generalizing table with
  | nil => cases h
  | cons r rest ih =>
    rw [List.foldlM_cons] at h
    rcases bind_eq_error.1 h with here | ⟨next, -, later⟩
    · unfold addWrapped at here
      split at here
      · exact field?_eq_none_of_add here
      · cases here
        rfl
    · exact ih later

end BranchTable

section Apart
variable {j : Join} {r q : Record}

theorem clusters_of_apart (apart : r.overlaps q = false) :
    Record.clusters j [r, q] = .ok [r, q] := by
  simp [Record.clusters, Record.addToClusters, Record.absorb, apart, bind, Except.bind, pure,
    Except.pure]

theorem assembleUnion_of_apart (apart : r.overlaps q = false) :
    assembleUnion j [r.schema, q.schema] =
      (BranchTable.addClusters j [] [r, q]).map BranchTable.schema := by
  have clusters := clusters_of_apart (j := j) apart
  change (Record.clusters j [r, q] >>= fun clusters =>
    BranchTable.addClusters j [] clusters >>= fun table => .ok table.schema) = _
  rw [clusters]
  change (BranchTable.addClusters j [] [r, q] >>= fun table => .ok table.schema) = _
  cases BranchTable.addClusters j [] [r, q] <;> rfl

theorem assembleUnion_apart_symm {c : Schema} (hr : r.FieldsNamed) (hq : q.FieldsNamed)
    (apart : r.overlaps q = false) (h : assembleUnion j [r.schema, q.schema] = .ok c) :
    assembleUnion j [q.schema, r.schema] = .ok c := by
  have apart' : q.overlaps r = false := (Record.overlaps_comm q r).trans apart
  have ne : r ≠ q := by
    intro same
    rw [same, Record.overlaps_self] at apart
    cases apart
  rw [assembleUnion_of_apart apart] at h
  rw [assembleUnion_of_apart apart']
  cases step : BranchTable.addClusters j [] [r, q] with
  | error e => rw [step] at h; cases h
  | ok final =>
    rw [step] at h
    cases h
    obtain ⟨final', step', same⟩ := schema_addClusters_perm BranchTable.holds_nil (by simp)
      (forall_mem_pair.2 ⟨hr, hq⟩) (by simp [apart, apart']) (by simpa using ne) (.swap q r [])
      step
    rw [step', ← same]
    rfl

/-- Records that do not overlap are unpacked into slots of their own, whichever comes first. -/
theorem assembleUnion_apart_sameOutcome (hr : r.FieldsNamed) (hq : q.FieldsNamed)
    (apart : r.overlaps q = false) :
    SameOutcome (assembleUnion j [r.schema, q.schema])
      (assembleUnion j [q.schema, r.schema]) := by
  have apart' : q.overlaps r = false := (Record.overlaps_comm q r).trans apart
  have fieldless {r q : Record} {e : Disagreement} (apart : r.overlaps q = false)
      (h : assembleUnion j [r.schema, q.schema] = .error e) : e.field? = none := by
    rw [assembleUnion_of_apart apart] at h
    cases step : BranchTable.addClusters j [] [r, q] with
    | error reason =>
      rw [step] at h
      cases h
      exact BranchTable.field?_eq_none_of_addWrapped step
    | ok final => rw [step] at h; cases h
  refine .of_forall_ok (fun c => assembleUnion_apart_symm hr hq apart)
    (fun c => assembleUnion_apart_symm hq hr apart') fun e e' failed failed' => ?_
  rw [fieldless apart failed, fieldless apart' failed']

end Apart

namespace SymmetricBelow
variable {j : Join} {level : Nat} (hj : SymmetricBelow j level) {name : Text} {a b : Schema}
  {r q : Record}

include hj

theorem fields (hr : PlainAt name r.schema) (hq : PlainAt name q.schema)
    (lowr : r.schema.height ≤ level) (lowq : q.schema.height ≤ level) :
    r.SymmetricFields j q := by
  intro f s t hs ht
  have lower := Record.height_field?_lt hs
  have lower' := Record.height_field?_lt ht
  exact hj f s t (hr.field hs) (hq.field ht) (by omega) (by omega)

/-- Records that overlap merge, and others are put into a union, whichever comes first. -/
theorem records (hr : PlainAt name r.schema) (hq : PlainAt name q.schema)
    (lowr : r.schema.height ≤ level) (lowq : q.schema.height ≤ level) :
    SameOutcome (Strict.joinRecords j [r, q]) (Strict.joinRecords j [q, r]) := by
  cases overlap : r.overlaps q with
  | false =>
    have union {r q : Record} (apart : r.overlaps q = false) :
        Strict.joinRecords j [r, q] = assembleUnion j [r.schema, q.schema] := by
      unfold Strict.joinRecords
      rw [clusters_of_apart apart]
      rfl
    rw [union overlap, union ((Record.overlaps_comm q r).trans overlap)]
    exact assembleUnion_apart_sameOutcome hr.fieldsNamed hq.fieldsNamed overlap
  | true =>
    have merged {r q : Record} (overlap : r.overlaps q = true) :
        Strict.joinRecords j [r, q] = (r.merge j q).map Record.schema := by
      have overlap' : q.overlaps r = true := (Record.overlaps_comm q r).trans overlap
      rw [Strict.joinRecords_of_overlapping (by simp [overlap, overlap', Record.overlaps_self])]
      change (r.merge j q >>= Except.ok).map _ = _
      cases r.merge j q <;> rfl
    rw [merged overlap, merged ((Record.overlaps_comm q r).trans overlap)]
    have names : r.name = q.name := by
      have namer := ((followsNaming_record hr.ascending).1 hr.follows).1
      have nameq := ((followsNaming_record hq.ascending).1 hq.follows).1
      rw [namer, nameq]
    exact (Record.merge_sameOutcome hr.ascending hq.ascending names
      (hj.fields hr hq lowr lowq)).map Record.schema

theorem plain (ha : PlainAt name a) (hb : PlainAt name b) (lowa : a.height ≤ level)
    (lowb : b.height ≤ level) :
    SameOutcome (joinPlain .strict j a b) (joinPlain .strict j b a) := by
  cases a with
  | primitive k =>
    cases b with
    | primitive l =>
      simp only [joinPlain, Kind.join?_comm l k]
      cases k.join? .strict l with
      | none => exact .of_field rfl
      | some m => exact .ok _
    | _ => exact .of_field rfl
  | array n s =>
    cases b with
    | array m t =>
      obtain ⟨rfl, -⟩ := followsNaming_array.1 ha.follows
      obtain ⟨rfl, -⟩ := followsNaming_array.1 hb.follows
      simp only [Schema.height] at lowa lowb
      exact (hj name s t ha.items hb.items (by omega) (by omega)).map _
    | _ => exact .of_field rfl
  | _ => cases b <;> exact .of_field rfl

omit hj in
/-- A record and a plain type are put into a union that is the same for either order. -/
theorem mixed (plain : b.isCompound = false) (ne : b ≠ null) :
    Strict.joinAllWith j [r.schema, b] = Strict.joinAllWith j [b, r.schema] := by
  have isRecord : r.schema.isCompound = true := rfl
  have differ : r.schema ≠ b := by
    rintro rfl
    cases plain
  have noRecord : b.record? = none := record?_eq_none plain
  have first : Strict.joinAllWith j [r.schema, b] = assembleUnion j [r.schema, b] := by
    rw [Strict.joinAllWith, Strict.candidates_pair differ r.schema_ne_null ne, Strict.joinCandidates]
    simp [isRecord, noRecord]
  have second : Strict.joinAllWith j [b, r.schema] = assembleUnion j [b, r.schema] := by
    rw [Strict.joinAllWith, Strict.candidates_pair differ.symm ne r.schema_ne_null, Strict.joinCandidates]
    simp [isRecord, noRecord]
  have compounds : compoundParts [b, r.schema] = compoundParts [r.schema, b] := by
    simp [compoundParts, plain, isRecord]
  have plains : plainParts [b, r.schema] = plainParts [r.schema, b] := by
    simp [plainParts, List.filter_cons, isRecord]
  rw [first, second]
  unfold assembleUnion plainBranch
  rw [compounds, plains]

omit hj in
theorem exists_record (ha : PlainAt name a) (compound : a.isCompound = true) :
    ∃ r : Record, a = r.schema := by
  cases a with
  | record n fields => exact ⟨⟨n, fields⟩, rfl⟩
  | union bs => exact absurd ha.free (not_unionFree_union bs)
  | _ => cases compound

/-- A join that is symmetric on lower schemas gives one by a step of the strict join. -/
theorem joinWith : SymmetricBelow (Strict.joinWith j) (level + 1) := by
  intro name a b ha hb lowa lowb
  by_cases same : a = b
  · rw [same]
    exact .refl _
  by_cases nulla : a = null
  · subst nulla
    simp only [Strict.joinWith, same, Ne.symm same, if_false, if_true]
    exact .refl _
  by_cases nullb : b = null
  · subst nullb
    simp only [Strict.joinWith, same, Ne.symm same, if_false, if_true]
    exact .refl _
  simp only [Strict.joinWith, same, Ne.symm same, nulla, nullb, if_false]
  cases compounda : a.isCompound with
  | true =>
    obtain ⟨r, rfl⟩ := exists_record ha compounda
    cases compoundb : b.isCompound with
    | true =>
      obtain ⟨q, rfl⟩ := exists_record hb compoundb
      have found : Strict.joinAllWith j [r.schema, q.schema] = Strict.joinRecords j [r, q] :=
        Strict.joinAllWith_of_records (Strict.candidates_pair same nulla nullb)
      have found' : Strict.joinAllWith j [q.schema, r.schema] = Strict.joinRecords j [q, r] :=
        Strict.joinAllWith_of_records (Strict.candidates_pair (Ne.symm same) nullb nulla)
      simp only [Bool.or_true, if_true, found, found']
      exact hj.records ha hb (by omega) (by omega)
    | false =>
      simp only [Bool.or_false, Bool.false_or, if_true, mixed compoundb nullb]
      exact .refl _
  | false =>
    cases compoundb : b.isCompound with
    | true =>
      obtain ⟨q, rfl⟩ := exists_record hb compoundb
      simp only [Bool.or_true, Bool.true_or, if_true, mixed compounda nulla]
      exact .refl _
    | false => exact hj.plain ha hb (by omega) (by omega)

end SymmetricBelow

namespace Strict

theorem symmetricBelow_joinWithin (level : Nat) : SymmetricBelow (joinWithin level) level := by
  induction level with
  | zero => exact fun _ a _ _ _ low => absurd low (Nat.not_lt_zero a.height)
  | succ level ih => exact ih.joinWith

/--
The strict join of two schemas without unions that are named by their place is symmetric:
either order gives the same schema, or fails with the same category of failure and at the
same field.
-/
theorem join_symm {name : Text} {a b : Schema} (ha : PlainAt name a) (hb : PlainAt name b) :
    SameOutcome (join a b) (join b a) := by
  have found := symmetricBelow_joinWithin (max a.height b.height + 1) name a b ha hb (by omega)
    (by omega)
  rwa [join, join, Nat.max_comm b.height]

theorem joinAllWith_symm {name : Text} {a b : Schema} (ha : PlainAt name a) (hb : PlainAt name b)
    (ne : a ≠ b) (fulla : a ≠ null) (fullb : b ≠ null) :
    SameOutcome (joinAllWith join [a, b]) (joinAllWith join [b, a]) := by
  have symmetric : SymmetricBelow join (max a.height b.height) :=
    fun _ _ _ hs ht _ _ => join_symm hs ht
  rw [joinAllWith_pair ne fulla fullb, joinAllWith_pair ne.symm fullb fulla]
  exact symmetric.joinWith name a b ha hb (by omega) (by omega)

/-- Wrappers make a union of their branches, and two records disagree about a field. -/
theorem join_symm_of_wrappers :
    join (.record "r" [("p", .record "p" [("string", .primitive .string)])])
        (.record "r" [("p", .record "p" [("int", .primitive .int)]), ("q", .primitive .null)]) =
      .ok (.record "r" [("p", .union [.primitive .int, .primitive .string]),
        ("q", .primitive .null)]) ∧
    ∃ s, join (.record "r" [("f", .array none (.primitive .int)), ("g", .primitive .int)])
        (.record "r" [("f", .primitive .string), ("g", .primitive .string)]) = .error s ∧
      s.field? = some "f" := by
  let int : Schema := .record "r" [("p", .record "p" [("int", .primitive .int)]),
    ("q", .primitive .null)]
  let string : Schema := .record "r" [("p", .record "p" [("string", .primitive .string)])]
  let items : Schema := .record "r" [("f", .array none (.primitive .int)), ("g", .primitive .int)]
  let word : Schema := .record "r" [("f", .primitive .string), ("g", .primitive .string)]
  constructor
  · have union := unionOf_pair (.primitive .int) (.primitive .string) rfl rfl (by decide)
    have joined : join int string = .ok (.record "r"
        [("p", .union [.primitive .int, .primitive .string]), ("q", .primitive .null)]) :=
      congrArg (fun u => Except.ok (record "r" [("p", u), ("q", .primitive .null)])) union
    have plain : PlainAt "r" int :=
      ⟨⟨by decide, by decide⟩, by simp [int, FollowsNaming, FieldsFollowNaming]⟩
    have outcome := join_symm plain
      (⟨⟨by decide, by decide⟩, by simp [string, FollowsNaming, FieldsFollowNaming]⟩ :
        PlainAt "r" string)
    rw [joined] at outcome
    generalize join string int = found at outcome
    cases outcome
    rfl
  · have failed : join word items = .error (.incompatibleField "r" "f"
        (.incompatible (.primitive .string) (.array none (.primitive .int)))) := rfl
    have plain : PlainAt "r" word :=
      ⟨⟨by decide, by decide⟩, by simp [word, FollowsNaming, FieldsFollowNaming]⟩
    have outcome := join_symm plain
      (⟨⟨by decide, by decide⟩, by simp [items, FollowsNaming, FieldsFollowNaming]⟩ :
        PlainAt "r" items)
    rw [failed] at outcome
    change ∃ s, join items word = .error s ∧ _
    generalize join items word = result at outcome ⊢
    cases outcome with
    | @error _ s _ field => exact ⟨s, rfl, field.symm⟩

end Strict

end SchemaInference
