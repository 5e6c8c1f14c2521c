import Mathlib.Data.List.Pairwise
import SchemaInference.Proofs.Alike
import SchemaInference.Proofs.Documents
import SchemaInference.Proofs.Resolution

/-!
# Homogeneous documents

Where the elements of every array are alike, nothing is left to a majority: strict and
lenient inference give the same schema.
-/

namespace SchemaInference

open Schema

theorem Scalar.kind_lenient {s : Scalar} {k : Kind} (h : s.kind .strict = .ok k) :
    s.kind .lenient = .ok k := by
  cases s with
  | integer n =>
    simp only [kind] at h ⊢
    split at h
    · next range => rw [if_pos range]; exact h
    split at h
    · next wide range => rw [if_neg wide, if_pos range]; exact h
    · cases h
  | _ => exact h

/-- Types that are alike and without unions have one join, which is their majority. -/
theorem majority_eq_of_joinAll {types : List Schema} {items : Schema}
    (canonical : ∀ t ∈ types, t.Canonical) (free : ∀ t ∈ types, t.UnionFree)
    (alike : types.Pairwise Alike) (joined : joinAll .strict types = .ok items) :
    IsJoinOf types items ∧ majority types = items := by
  have symmetric : Std.Symm Alike := ⟨fun _ _ => Alike.symm⟩
  have alike : ∀ s ∈ types, ∀ t ∈ types, Alike s t :=
    fun s hs t ht => alike.forall_of_forall (fun t ht => alike_refl (free t ht)) hs ht
  have bound : IsJoinOf types items := by
    refine (Strict.joins_join (branchesHeight types)).isJoinOf_joinAllWith canonical
      (fun t => height_le_branchesHeight) (fun t ht => (free t ht).self)
      (fun s hs t ht => ?_) joined
    exact ((alike s hs t ht).mergeable (canonical s hs) (canonical t ht)).mono False.elim
  exact ⟨bound, (isLeastAbove_majority canonical alike).unique bound.isLeastAbove⟩

/-- Schemas of homogeneous documents are canonical and hold no unions. -/
theorem inferenceInvariant_homogeneous {settings : Settings} (strict : settings.mode = .strict) :
    InferenceInvariant settings (fun _ types => types.Pairwise Alike) fun _ _ t =>
      t.Canonical ∧ t.UnionFree where
  scalar _ _ k _ := ⟨canonical_primitive k, unionFree_primitive k⟩
  object name members fields _ parts := by
    have asc : Ascending (Record.ofFields name fields).fields := Record.ascending_sortFields fields
    have part {f : Text} {t : Schema} (found : (Record.ofFields name fields).field? f = some t) :
        t.Canonical ∧ t.UnionFree := by
      obtain ⟨_, _, h⟩ := exists_member_of_field?
        (S := fun _ _ t => t.Canonical ∧ t.UnionFree) parts found
      exact h
    exact ⟨Record.canonical_schema.2 ⟨asc, fun f t found => (part found).1⟩,
      (unionFree_record asc).2 fun f t found => (part found).2⟩
  array name elements types items parts alike joined := by
    rw [strict] at joined
    have part (t : Schema) (ht : t ∈ types) : t.Canonical ∧ t.UnionFree := by
      obtain ⟨_, _, h⟩ := exists_left_of_mem parts ht
      exact h
    obtain ⟨bound, _⟩ := majority_eq_of_joinAll (fun t ht => (part t ht).1)
      (fun t ht => (part t ht).2) alike joined
    exact ⟨canonical_array.2 bound.canonical,
      unionFree_array.2 (bound.unionFree fun t ht => (part t ht).2)⟩

section Transfer
variable {maxDepth : Int}

mutual

theorem infer_lenient {name path : Text} {depth : Int} : ∀ {v : Json} {t : Schema},
    v.EveryArray (fun _ types => types.Pairwise Alike) ⟨.strict, maxDepth⟩ name path depth →
      infer ⟨.strict, maxDepth⟩ name path depth v = .ok t →
      infer ⟨.lenient, maxDepth⟩ name path depth v = .ok t
  | .scalar s, t, _, h => by
      obtain ⟨shallow, k, hk, rfl⟩ := infer_scalar_eq_ok.1 h
      exact infer_scalar_eq_ok.2 ⟨shallow, k, Scalar.kind_lenient hk, rfl⟩
  | .object members, t, alike, h => by
      rw [Json.EveryArray] at alike
      obtain ⟨shallow, named, fields, found, rfl⟩ := infer_object_eq_ok.1 h
      exact infer_object_eq_ok.2 ⟨shallow, named, fields, inferMembers_lenient alike found, rfl⟩
  | .array elements, t, alike, h => by
      rw [Json.EveryArray] at alike
      obtain ⟨shallow, types, items, found, joined, rfl⟩ := infer_array_eq_ok.1 h
      have part (t : Schema) (ht : t ∈ types) : t.Canonical ∧ t.UnionFree := by
        obtain ⟨_, _, h⟩ := exists_left_of_mem
          ((inferenceInvariant_homogeneous rfl).inferElements alike.2 found) ht
        exact h
      -- in both modes the elements have the types `types`, whose join is their majority
      obtain ⟨_, same⟩ := majority_eq_of_joinAll (fun t ht => (part t ht).1)
        (fun t ht => (part t ht).2) (alike.1 types found) joined
      refine infer_array_eq_ok.2
        ⟨shallow, types, items, inferElements_lenient alike.2 found, ?_, rfl⟩
      exact (Lenient.joinAll_eq types).trans (congrArg Except.ok same)

theorem inferMembers_lenient {path : Text} {depth : Int} :
    ∀ {members : List (Text × Json)} {fields : List (Text × Schema)},
    Json.EveryArrayOfMembers (fun _ types => types.Pairwise Alike) ⟨.strict, maxDepth⟩ path depth
      members → inferMembers ⟨.strict, maxDepth⟩ path depth members = .ok fields →
      inferMembers ⟨.lenient, maxDepth⟩ path depth members = .ok fields
  | [], fields, _, h => h
  | (key, v) :: rest, fields, alike, h => by
      rw [Json.EveryArrayOfMembers] at alike
      obtain ⟨used, t, later, ht, hlater, rfl⟩ := inferMembers_cons_eq_ok.1 h
      exact inferMembers_cons_eq_ok.2 ⟨used, t, later, infer_lenient alike.1 ht,
        inferMembers_lenient alike.2 hlater, rfl⟩

theorem inferElements_lenient {name path : Text} {depth : Int} {index : Nat} :
    ∀ {elements : List Json} {types : List Schema},
    Json.EveryArrayOfElements (fun _ types => types.Pairwise Alike) ⟨.strict, maxDepth⟩ name path
      depth index elements →
      inferElements ⟨.strict, maxDepth⟩ name path depth index elements = .ok types →
      inferElements ⟨.lenient, maxDepth⟩ name path depth index elements = .ok types
  | [], types, _, h => h
  | v :: rest, types, alike, h => by
      rw [Json.EveryArrayOfElements] at alike
      obtain ⟨t, later, ht, hlater, rfl⟩ := inferElements_cons_eq_ok.1 h
      exact inferElements_cons_eq_ok.2 ⟨t, later, infer_lenient alike.1 ht,
        inferElements_lenient alike.2 hlater, rfl⟩

end

end Transfer

/--
Where the element types of every array are pairwise alike and strict inference succeeds,
lenient inference gives the same schema.
-/
theorem infer_eq_of_homogeneous {maxDepth : Int} {name path : Text} {depth : Int} {v : Json}
    (homogeneous :
      v.EveryArray (fun _ types => types.Pairwise Alike) ⟨.strict, maxDepth⟩ name path depth)
    (inferable : ∃ t, infer ⟨.strict, maxDepth⟩ name path depth v = .ok t) :
    infer ⟨.lenient, maxDepth⟩ name path depth v = infer ⟨.strict, maxDepth⟩ name path depth v := by
  obtain ⟨t, inferred⟩ := inferable
  rw [inferred]
  exact infer_lenient homogeneous inferred

/-- Nulls, empty arrays and wide numbers do not make rows of the same fields differ. -/
theorem infer_eq_of_homogeneous_rows :
    let rows : Json := .array [
      .object [("a", .integer 1), ("b", .array [.scalar .null, .integer 2])],
      .scalar .null,
      .object [("b", .array []), ("a", .integer 5000000000)]]
    infer ⟨.lenient, 100⟩ "r" [] 0 rows = infer ⟨.strict, 100⟩ "r" [] 0 rows := by
  intro rows
  apply infer_eq_of_homogeneous
  · have wide : Alike (.primitive .int) (.primitive .long) := .numbers rfl rfl
    have row : Alike
        (.record "r" [("a", .primitive .int), ("b", .array none (.primitive .int))])
        (.record "r" [("a", .primitive .long), ("b", .array none null)]) := by
      refine .records rfl fun f s t hs ht => ?_
      have hs := mem_of_lookup hs
      simp only [List.mem_cons, Prod.mk.injEq, List.not_mem_nil, or_false] at hs
      rcases hs with ⟨rfl, rfl⟩ | ⟨rfl, rfl⟩
      · cases ht
        exact wide
      · cases ht
        exact .arrays (.null_right _)
    refine Json.everyArray_array_of_eq_ok rfl ?table
      ⟨⟨trivial, Json.everyArray_array_of_eq_ok rfl ?counts ⟨trivial, trivial, trivial⟩, trivial⟩,
        trivial, ⟨Json.everyArray_array_of_eq_ok rfl .nil trivial, trivial, trivial⟩, trivial⟩
    case table =>
      refine .cons (List.forall_mem_cons.2 ⟨.null_right _, List.forall_mem_cons.2 ⟨row, ?_⟩⟩)
        (.cons (by simp [Alike.null_left]) (.cons (by simp) .nil))
      simp
    case counts => exact .cons (by simp [Alike.null_left]) (.cons (by simp) .nil)
  · exact ⟨.array none
      (.record "r" [("a", .primitive .long), ("b", .array none (.primitive .int))]), rfl⟩

end SchemaInference
