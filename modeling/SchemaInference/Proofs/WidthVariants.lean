import SchemaInference.Proofs.LenientInference
import SchemaInference.Proofs.ShapeClasses
import SchemaInference.Proofs.UnionWidths

/-!
# Schemas that differ in the width of numbers

Inferred schemas of one shape have a join, which is the widest of them, unless they have
different unions at a place that do not keep their branches.  Groups of messages are then of
different shapes, and each group has the widest schema of its members.
-/

namespace SchemaInference

open Schema

theorem inferenceInvariant_canonical {settings : Settings} (lenient : settings.mode = .lenient) :
    InferenceInvariant settings (fun _ _ => True) fun _ _ t => t.Canonical where
  scalar _ _ k _ := canonical_primitive k
  object name members fields _ parts := by
    refine Record.canonical_schema.2 ⟨Record.ascending_sortFields fields, fun f t found => ?_⟩
    obtain ⟨_, _, h⟩ := exists_member_of_field? (S := fun _ _ t => t.Canonical) parts found
    exact h
  array name elements types items parts _ joined := by
    rw [lenient] at joined
    cases (Lenient.joinAll_eq types).symm.trans joined
    refine canonical_array.2 (everywhere_majority ?_ ?_ ?_ fun t ht => ?_)
    · exact fun _ => trivial
    · exact fun _ _ _ _ => trivial
    · exact fun _ _ asc => asc
    · obtain ⟨_, _, h⟩ := exists_left_of_mem parts ht
      exact h

namespace Schema

/-- Whether a schema is what inference in a mode gives for some document. -/
def IsInferred (mode : Mode) (t : Schema) : Prop :=
  ∃ (limit : Int) (name path : Text) (depth : Int) (v : Json),
    infer ⟨mode, limit⟩ name path depth v = .ok t

/-- What inference in a mode makes sure of: order if it is strict, no unions if it is lenient. -/
def Formed : Mode → Schema → Prop
  | .strict, t => t.Orderly
  | .lenient, t => t.Plain

variable {mode : Mode} {s t : Schema}

theorem Formed.canonical (h : t.Formed mode) : t.Canonical := by
  cases mode with
  | strict => exact Orderly.canonical h
  | lenient => exact Plain.canonical h

theorem IsInferred.formed (h : t.IsInferred mode) : t.Formed mode := by
  obtain ⟨limit, name, path, depth, v, inferred⟩ := h
  have everywhere : v.EveryArray (fun _ _ => True) ⟨mode, limit⟩ name path depth :=
    v.everyArray_of_forall fun _ _ => trivial
  cases mode with
  | strict => exact (inferenceInvariant_orderly rfl).infer everywhere inferred
  | lenient =>
    constructor
    · exact (inferenceInvariant_canonical rfl).infer everywhere inferred
    · exact ((inferenceInvariant_standsForItself rfl).infer everywhere inferred).imp
        fun _ h => h.1

/-- Schemas of one shape that keep their unions have a join, the widest of them. -/
theorem exists_join_of_formed (hs : s.Formed mode) (ht : t.Formed mode)
    (same : s.withoutWidth = t.withoutWidth) (keeps : mode = .strict → KeepsUnions s t) :
    ∃ c, join mode s t = .ok c ∧ c.Formed mode ∧ IsWidest [s, t] c := by
  cases mode with
  | strict =>
    have joined := Strict.join_eq_widen hs ht same (keeps rfl)
    exact ⟨widen s t, joined, Strict.orderlyJoin_join hs ht joined,
      isWidest_widen (Orderly.canonical hs) (Orderly.canonical ht) same⟩
  | lenient =>
    have pair := Plain.sameShape hs ht same
    obtain ⟨c, joined, least⟩ := exists_join_of_sameShape .lenient pair
    have shape : c.withoutWidth = s.withoutWidth := (pair.takesKinds List.mem_cons_self least).same
    exact ⟨c, joined, ⟨least.canonical, unionFree_of_withoutWidth_eq (Plain.free hs) shape⟩,
      pair.isWidest List.mem_cons_self least⟩

end Schema

section Groups
variable {mode : Mode} {found : List Match}
  (formed : ∀ m ∈ found, m.schema.Formed mode)
  (keeps : mode = .strict → ∀ m ∈ found, ∀ n ∈ found,
    m.schema.sameUpToWidth n.schema = true → KeepsUnions m.schema n.schema)
include formed keeps

/-- Schemas of matches of one shape are joined to the widest of them. -/
theorem coalesces_formed : Coalesces mode (fun t => ∃ m ∈ found, m.schema = t) fun ts c =>
    (c.Formed mode ∧ IsWidest ts c) ∧ ∀ t ∈ ts, ∃ m ∈ found, m.schema = t where
  canonical h := h.1.1.canonical
  single := by
    rintro t ⟨m, hm, rfl⟩
    have hr := formed m hm
    exact ⟨⟨hr, .single hr.canonical⟩, by simpa using ⟨m, hm, rfl⟩⟩
  join := by
    rintro ts s t ⟨⟨hs, widest⟩, members⟩ ⟨m, hm, rfl⟩ same
    have canonical (t : Schema) (ht : t ∈ ts) : t.Canonical := by
      obtain ⟨n, hn, rfl⟩ := members t ht
      exact (formed n hn).canonical
    have kept (strict : mode = .strict) : KeepsUnions s m.schema := by
      refine KeepsUnions.widest (fun t ht => ?_) canonical hs.canonical (formed m hm).canonical
        widest same
      obtain ⟨n, hn, rfl⟩ := members t ht
      have narrower := widest.narrower ht (canonical _ ht) hs.canonical
      refine keeps strict n hn m hm ((sameUpToWidth_iff ?_ ?_).2 (narrower.same.trans same))
      · exact (formed n hn).canonical
      · exact (formed m hm).canonical
    obtain ⟨c, joined, hc, wider⟩ := exists_join_of_formed hs (formed m hm) same kept
    have shape := wider.narrower List.mem_cons_self hs.canonical hc.canonical
    refine ⟨c, joined, shape.same.symm, ⟨hc, ?_⟩, ?_⟩
    · exact widest.append wider canonical hs.canonical hc.canonical
    · exact List.forall_mem_append.2 ⟨members, by simpa using ⟨m, hm, rfl⟩⟩

/-- The groups of matches are of different shapes, and each has the widest schema of its members. -/
theorem groupMatches_widest (distinct : (found.map Match.index).Nodup) :
    (groupMatches mode found).Pairwise
        (fun g h => g.schema.sameUpToWidth h.schema = false) ∧
      ∀ g ∈ groupMatches mode found,
        IsWidest ((found.filter fun m => m.index ∈ g.messages).map Match.schema) g.schema := by
  have classes := (coalesces_formed formed keeps).groupMatches distinct
    fun m hm => ⟨m, hm, rfl⟩
  have grouped := classes.grouped_found distinct
  have canonical (g : Group) (hg : g ∈ groupMatches mode found) : g.schema.Canonical :=
    (classes.standsFor g hg).1.1.canonical
  constructor
  · refine grouped.apart.imp_of_mem fun {a b} ha hb other => ?_
    rw [← Bool.not_eq_true, sameUpToWidth_iff (canonical a ha) (canonical b hb)]
    exact other
  · intro g hg
    refine (classes.standsFor g hg).1.2.congr fun t => ?_
    rw [mem_class_iff distinct]
    simp only [List.mem_map, List.mem_filter, decide_eq_true_eq, and_assoc]
    refine exists_congr fun m => and_congr_right fun hm => and_congr_left' ?_
    exact (classes.mem_messages_iff distinct hg hm).symm

end Groups

/--
Inferred schemas of one shape have a join, the widest of them, if at every place where strict
inference gives them different unions one of these keeps its branches.  Groups of results are
then of different shapes, and each has the widest schema of its members.
-/
theorem widths_coalesce (mode : Mode) :
    (∀ s t : Schema, s.IsInferred mode → t.IsInferred mode → s.sameUpToWidth t = true →
      (mode = .strict → KeepsUnions s t) →
      ∃ c, join mode s t = .ok c ∧ IsWidest [s, t] c) ∧
    ∀ results : List MessageOutcome, (results.map MessageOutcome.index).Nodup →
      (∀ m ∈ results.filterMap MessageOutcome.match?, m.schema.IsInferred mode) →
      (mode = .strict → ∀ m ∈ results.filterMap MessageOutcome.match?,
        ∀ n ∈ results.filterMap MessageOutcome.match?,
          m.schema.sameUpToWidth n.schema = true → KeepsUnions m.schema n.schema) →
      (groupOutcomes mode results).Pairwise
          (fun g h => g.schema.sameUpToWidth h.schema = false) ∧
        ∀ g ∈ groupOutcomes mode results, IsWidest
          (((results.filterMap MessageOutcome.match?).filter fun m => m.index ∈ g.messages).map
            Match.schema) g.schema := by
  constructor
  · intro s t hs ht same keeps
    have hs := hs.formed
    have ht := ht.formed
    have same := (sameUpToWidth_iff hs.canonical ht.canonical).1 same
    obtain ⟨c, joined, _, widest⟩ := exists_join_of_formed hs ht same keeps
    exact ⟨c, joined, widest⟩
  · intro results distinct inferred keeps
    exact groupMatches_widest (fun m hm => (inferred m hm).formed) keeps
      (matches_sublist.nodup distinct)

/-- Numbers of two widths in a branch of a union and in a record among its branches. -/
theorem widths_coalesce_of_branches :
    let rows (k : Kind) : Schema :=
      .array none (.union [.primitive k, .record "p" [("x", .primitive k)]])
    let results : List MessageOutcome := [⟨0, .ok (rows .int)⟩, ⟨1, .ok (rows .long)⟩]
    (∃ c, join .strict (rows .int) (rows .long) = .ok c ∧
      IsWidest [rows .int, rows .long] c) ∧
    (groupOutcomes .strict results).Pairwise
        (fun g h => g.schema.sameUpToWidth h.schema = false) ∧
      ∀ g ∈ groupOutcomes .strict results, IsWidest
        (((results.filterMap MessageOutcome.match?).filter fun m => m.index ∈ g.messages).map
          Match.schema) g.schema := by
  intro rows results
  have union (k : Kind) :=
    unionOf_pair (.primitive k) (.record "p" [("x", .primitive k)]) rfl rfl (by cases k <;> rfl)
  have narrow : (rows .int).IsInferred .strict :=
    ⟨100, "r", "r", 0, .array [.object [("int", .integer 1)],
      .object [("p", .object [("x", .integer 1)])]],
      congrArg (fun u => Except.ok (Schema.array none u)) (union .int)⟩
  have wide : (rows .long).IsInferred .strict :=
    ⟨100, "r", "r", 0, .array [.object [("long", .integer 3000000000)],
      .object [("p", .object [("x", .integer 3000000000)])]],
      congrArg (fun u => Except.ok (Schema.array none u)) (union .long)⟩
  have kept (k : Kind) : KeepsBranches [.primitive k, .record "p" [("x", .primitive k)]] := by
    refine ⟨by cases k <;> decide, Nat.le_refl 1, fun b hb r hr w wrapped => ?_⟩
    simp only [List.mem_cons, List.not_mem_nil, or_false] at hb
    rcases hb with rfl | rfl
    · cases hr
    · cases hr
      cases wrapped
  have keeps (k : Kind) (t : Schema) : KeepsUnions (rows k) t := by
    apply KeepsUnions.of_everywhere
    refine everywhere_array.2 ⟨?_, everywhere_union.2 ⟨?_, forall_mem_pair.2 ⟨?_, ?_⟩⟩⟩
    · rintro _ ⟨⟩
    · rintro _ ⟨⟩
      exact kept k
    · exact everywhere_primitive.2 (by rintro _ ⟨⟩)
    · refine everywhere_record.2 ⟨by rintro _ ⟨⟩, ?_⟩
      simp [everywhere_primitive]
  obtain ⟨joined, grouped⟩ := widths_coalesce .strict
  refine ⟨joined _ _ narrow wide (by decide) fun _ => keeps .int _, ?_⟩
  have members : ∀ m ∈ results.filterMap MessageOutcome.match?, ∃ k, m.schema = rows k ∧
      (rows k).IsInferred .strict :=
    forall_mem_pair.2 ⟨⟨.int, rfl, narrow⟩, .long, rfl, wide⟩
  refine grouped results (by decide) (fun m hm => ?_) fun _ m hm n _ _ => ?_
  · obtain ⟨k, heq, inferred⟩ := members m hm
    exact heq ▸ inferred
  · obtain ⟨k, heq, _⟩ := members m hm
    exact heq ▸ keeps k _

/--
Unions of records lose their branches as they are joined: the records of all branches are
clustered, and here the two clusters that share a field become one.
-/
theorem exists_infer_not_coalesce : ∃ s t c : Schema,
    infer {} "Record" "Record" 0 (.array [.object [("a", .object [("x", .integer 1)])],
      .object [("b", .object [("x", .integer 2)])]]) = .ok s ∧
    infer {} "Record" "Record" 0 (.array [.object [("a", .object [("x", .integer 3000000000)])],
      .object [("b", .object [("x", .integer 2)])]]) = .ok t ∧
    s.sameUpToWidth t = true ∧ join .strict s t = .ok c ∧ s.sameUpToWidth c = false ∧
    groupOutcomes .strict [⟨0, .ok s⟩, ⟨1, .ok t⟩] = [⟨c, [0, 1]⟩] := by
  let rows (k : Kind) : Schema := .array none
    (.union [.record "a" [("x", .primitive k)], .record "b" [("x", .primitive .int)]])
  let united : Schema := .array none (.record "a" [("x", .primitive .long)])
  have union (k : Kind) := unionOf_pair (.record "a" [("x", .primitive k)])
    (.record "b" [("x", .primitive .int)]) rfl rfl rfl
  have grouped : groupOutcomes .strict [⟨0, .ok (rows .int)⟩, ⟨1, .ok (rows .long)⟩] =
      [⟨united, [0, 1]⟩] := by
    have exact : exactGroups [⟨0, rows .int⟩, ⟨1, rows .long⟩] =
        [⟨rows .int, [0]⟩, ⟨rows .long, [1]⟩] := by
      decide +kernel
    refine (groupMatches_eq .strict (.refl _) (by decide) exact).trans ?_
    exact congrArg (fun is => [Group.mk united is]) (ascending_eq (.refl _) (by decide))
  refine ⟨rows .int, rows .long, united, ?_, ?_, by decide, rfl, by decide, grouped⟩
  · exact congrArg (fun u => Except.ok (Schema.array none u)) (union .int)
  · exact congrArg (fun u => Except.ok (Schema.array none u)) (union .long)

end SchemaInference
