import SchemaInference.Proofs.Documents
import SchemaInference.Proofs.Majorities
import SchemaInference.Proofs.Objects
import SchemaInference.Proofs.Resolution
import SchemaInference.Proofs.Subsumption

/-!
# When lenient inference succeeds

A majority can always be found, so that lenient inference fails on names and on depth
only, and what it finds is no union.
-/

namespace SchemaInference

open Schema

namespace Json

/-- Whether nothing in a value at `depth` stands below the depth `limit`. -/
inductive WithinDepth (limit : Int) : Int → Json → Prop where
  | scalar {depth : Int} (here : depth ≤ limit) (s : Scalar) : WithinDepth limit depth (.scalar s)
  | array {depth : Int} (here : depth ≤ limit) {elements : List Json}
    (parts : ∀ v ∈ elements, WithinDepth limit (depth + 1) v) :
    WithinDepth limit depth (.array elements)
  | object {depth : Int} (here : depth ≤ limit) {members : List (Text × Json)}
    (parts : ∀ m ∈ members, WithinDepth limit (depth + 1) m.2) :
    WithinDepth limit depth (.object members)

/-- Whether there is an object that is reached through arrays only. -/
inductive HasOuterObject : Json → Prop where
  | object (members : List (Text × Json)) : HasOuterObject (.object members)
  | array {elements : List Json} {v : Json} (mem : v ∈ elements) (outer : HasOuterObject v) :
    HasOuterObject (.array elements)

/-- Whether no object in a value has a member without a name. -/
abbrev NamedMembers (v : Json) : Prop := v.EveryObject fun members => ∀ m ∈ members, m.1 ≠ []

section Parts
variable {limit depth : Int} {s : Scalar} {elements : List Json} {members : List (Text × Json)}

theorem withinDepth_scalar : WithinDepth limit depth (.scalar s) ↔ depth ≤ limit := by
  constructor
  · rintro ⟨here⟩
    exact here
  · exact fun here => .scalar here s

theorem withinDepth_array : WithinDepth limit depth (.array elements) ↔
    depth ≤ limit ∧ ∀ v ∈ elements, WithinDepth limit (depth + 1) v := by
  constructor
  · rintro ⟨⟩
    exact ⟨‹_›, ‹_›⟩
  · exact fun h => .array h.1 h.2

theorem withinDepth_object : WithinDepth limit depth (.object members) ↔
    depth ≤ limit ∧ ∀ m ∈ members, WithinDepth limit (depth + 1) m.2 := by
  constructor
  · rintro ⟨⟩
    exact ⟨‹_›, ‹_›⟩
  · exact fun h => .object h.1 h.2

theorem hasOuterObject_array : HasOuterObject (.array elements) ↔
    ∃ v ∈ elements, v.HasOuterObject := by
  constructor
  · rintro ⟨⟩
    exact ⟨_, ‹_›, ‹_›⟩
  · rintro ⟨v, mem, outer⟩
    exact .array mem outer

end Parts

end Json

theorem Scalar.exists_kind_lenient (s : Scalar) : ∃ k, s.kind .lenient = .ok k := by
  cases s with
  | integer n =>
    simp only [kind]
    split
    · exact ⟨.int, rfl⟩
    split
    · exact ⟨.long, rfl⟩
    · exact ⟨.double, rfl⟩
  | _ => exact ⟨_, rfl⟩

section Success
variable {limit depth : Int} {name path : Text}

theorem exists_infer_object {members : List (Text × Json)} :
    (∃ t, infer ⟨.lenient, limit⟩ name path depth (.object members) = .ok t) ↔
      depth ≤ limit ∧ name ≠ [] ∧
        ∃ fields, inferMembers ⟨.lenient, limit⟩ path depth members = .ok fields := by
  simp only [infer_object_eq_ok]
  constructor
  · rintro ⟨t, shallow, named, fields, found, _⟩
    exact ⟨shallow, named, fields, found⟩
  · rintro ⟨shallow, named, fields, found⟩
    exact ⟨_, shallow, named, fields, found, rfl⟩

theorem exists_infer_array {elements : List Json} :
    (∃ t, infer ⟨.lenient, limit⟩ name path depth (.array elements) = .ok t) ↔
      depth ≤ limit ∧
        ∃ types, inferElements ⟨.lenient, limit⟩ name path depth 0 elements = .ok types := by
  simp only [infer_array_eq_ok]
  constructor
  · rintro ⟨t, shallow, types, items, found, _⟩
    exact ⟨shallow, types, found⟩
  · rintro ⟨shallow, types, found⟩
    exact ⟨_, shallow, types, majority types, found, Lenient.joinAll_eq types, rfl⟩

mutual

theorem exists_infer_lenient {name path : Text} {depth : Int} : ∀ v : Json,
    (∃ t, infer ⟨.lenient, limit⟩ name path depth v = .ok t) ↔
      v.WithinDepth limit depth ∧ v.NamedMembers ∧ (name ≠ [] ∨ ¬v.HasOuterObject)
  | .scalar s => by
      obtain ⟨k, hk⟩ := s.exists_kind_lenient
      have inner : ¬Json.HasOuterObject (.scalar s) := nofun
      simp [infer_scalar_eq_ok, Json.withinDepth_scalar, hk, inner, Json.EveryObject]
  | .object members => by
      have outer := Json.HasOuterObject.object members
      rw [exists_infer_object, exists_inferMembers_lenient members, Json.withinDepth_object,
        Json.NamedMembers, Json.everyObject_object]
      constructor
      · rintro ⟨shallow, named, parts⟩
        exact ⟨⟨shallow, fun m hm => (parts m hm).2.1⟩,
          ⟨fun m hm => (parts m hm).1, fun m hm => (parts m hm).2.2⟩, .inl named⟩
      · rintro ⟨⟨shallow, deep⟩, ⟨keys, below⟩, named⟩
        exact ⟨shallow, named.resolve_right (not_not_intro outer),
          fun m hm => ⟨keys m hm, deep m hm, below m hm⟩⟩
  | .array elements => by
      rw [exists_infer_array, exists_inferElements_lenient elements, Json.withinDepth_array,
        Json.NamedMembers, Json.everyObject_array, Json.hasOuterObject_array]
      constructor
      · rintro ⟨shallow, parts⟩
        refine ⟨⟨shallow, fun v hv => (parts v hv).1⟩, fun v hv => (parts v hv).2.1, ?_⟩
        -- elements share the name of the array: without one none may lead to an object
        by_cases named : name = []
        · refine .inr fun ⟨v, hv, outer⟩ => ?_
          exact (parts v hv).2.2.elim (absurd named) (absurd outer)
        · exact .inl named
      · rintro ⟨⟨shallow, deep⟩, below, named⟩
        refine ⟨shallow, fun v hv => ⟨deep v hv, below v hv, ?_⟩⟩
        exact named.imp_right fun inner outer => inner ⟨v, hv, outer⟩

theorem exists_inferMembers_lenient {path : Text} {depth : Int} :
    ∀ members : List (Text × Json),
    (∃ fields, inferMembers ⟨.lenient, limit⟩ path depth members = .ok fields) ↔
      ∀ m ∈ members, m.1 ≠ [] ∧ m.2.WithinDepth limit (depth + 1) ∧ m.2.NamedMembers
  | [] => by simp [inferMembers]
  | (key, v) :: rest => by
      rw [List.forall_mem_cons, ← exists_inferMembers_lenient rest]
      simp only [inferMembers_cons_eq_ok]
      constructor
      · rintro ⟨fields, named, t, later, ht, hlater, _⟩
        obtain ⟨deep, below, _⟩ := (exists_infer_lenient v).1 ⟨t, ht⟩
        exact ⟨⟨named, deep, below⟩, later, hlater⟩
      · rintro ⟨⟨named, deep, below⟩, later, hlater⟩
        obtain ⟨t, ht⟩ := (exists_infer_lenient v).2 ⟨deep, below, .inl named⟩
        exact ⟨_, named, t, later, ht, hlater, rfl⟩

theorem exists_inferElements_lenient {name path : Text} {depth : Int} {index : Nat} :
    ∀ elements : List Json,
    (∃ types, inferElements ⟨.lenient, limit⟩ name path depth index elements = .ok types) ↔
      ∀ v ∈ elements, v.WithinDepth limit (depth + 1) ∧ v.NamedMembers ∧
        (name ≠ [] ∨ ¬v.HasOuterObject)
  | [] => by simp [inferElements]
  | v :: rest => by
      rw [List.forall_mem_cons, ← exists_inferElements_lenient rest, ← exists_infer_lenient v]
      simp only [inferElements_cons_eq_ok]
      constructor
      · rintro ⟨types, t, later, ht, hlater, _⟩
        exact ⟨⟨t, ht⟩, later, hlater⟩
      · rintro ⟨⟨t, ht⟩, later, hlater⟩
        exact ⟨_, t, later, ht, hlater, rfl⟩

end

end Success

section Failures
variable {limit : Int} {e : Located Failure}

/-- Whether a failure is due to names or to depth. -/
def Located.IsNamingOrDepth (e : Located Failure) : Prop :=
  e.cause.category = .naming ∨ e.cause.category = .depth

theorem cause_of_require {condition : Bool} {failure : Failure} {path : Text}
    (h : require condition failure path = .error e) : e.cause = failure := by
  unfold require at h
  split at h
  · cases h
  · cases h
    rfl

theorem isNamingOrDepth_of_tooDeep {depth : Int} {path : Text}
    (h : require (depth ≤ limit) (.tooDeep limit) path = .error e) : e.IsNamingOrDepth := by
  refine .inr ?_
  rw [cause_of_require h]
  rfl

mutual

theorem isNamingOrDepth_of_infer {name path : Text} {depth : Int} : ∀ {v : Json},
    infer ⟨.lenient, limit⟩ name path depth v = .error e → e.IsNamingOrDepth
  | .scalar s, h => by
      obtain ⟨k, hk⟩ := s.exists_kind_lenient
      rw [infer, bind_eq_error] at h
      rcases h with h | ⟨_, _, h⟩
      · exact isNamingOrDepth_of_tooDeep h
      · rw [hk] at h
        cases h
  | .object members, h => by
      rw [infer, bind_eq_error] at h
      rcases h with h | ⟨_, _, h⟩
      · exact isNamingOrDepth_of_tooDeep h
      rcases bind_eq_error.1 h with h | ⟨_, _, h⟩
      · refine .inl ?_
        rw [cause_of_require h]
        rfl
      rcases bind_eq_error.1 h with h | ⟨fields, _, h⟩
      · exact isNamingOrDepth_of_inferMembers h
      · cases h
  | .array elements, h => by
      rw [infer, bind_eq_error] at h
      rcases h with h | ⟨_, _, h⟩
      · exact isNamingOrDepth_of_tooDeep h
      rcases bind_eq_error.1 h with h | ⟨types, _, h⟩
      · exact isNamingOrDepth_of_inferElements h
      · have joined : joinAll .lenient types = .ok (majority types) := Lenient.joinAll_eq types
        rw [joined] at h
        cases h

theorem isNamingOrDepth_of_inferMembers {path : Text} {depth : Int} :
    ∀ {members : List (Text × Json)},
    inferMembers ⟨.lenient, limit⟩ path depth members = .error e → e.IsNamingOrDepth
  | [], h => by cases h
  | (key, v) :: rest, h => by
      rw [inferMembers, bind_eq_error] at h
      rcases h with h | ⟨_, _, h⟩
      · refine .inl ?_
        rw [cause_of_require h]
        rfl
      rcases bind_eq_error.1 h with h | ⟨t, _, h⟩
      · exact isNamingOrDepth_of_infer h
      rcases bind_eq_error.1 h with h | ⟨fields, _, h⟩
      · exact isNamingOrDepth_of_inferMembers h
      · cases h

theorem isNamingOrDepth_of_inferElements {name path : Text} {depth : Int} {index : Nat} :
    ∀ {elements : List Json},
    inferElements ⟨.lenient, limit⟩ name path depth index elements = .error e → e.IsNamingOrDepth
  | [], h => by cases h
  | v :: rest, h => by
      rw [inferElements, bind_eq_error] at h
      rcases h with h | ⟨t, _, h⟩
      · exact isNamingOrDepth_of_infer h
      rcases bind_eq_error.1 h with h | ⟨types, _, h⟩
      · exact isNamingOrDepth_of_inferElements h
      · cases h

end

end Failures

namespace Schema

/-- Whether a schema is neither a union nor an array that is a branch of one. -/
def StandsForItself (t : Schema) : Prop := t.isUnion = false ∧ t.isNamedArray = false

end Schema

/-- Lenient inference builds no unions, nor arrays with names. -/
theorem inferenceInvariant_standsForItself {settings : Settings}
    (lenient : settings.mode = .lenient) :
    InferenceInvariant settings (fun _ _ => True) fun _ _ t => t.Everywhere StandsForItself where
  scalar _ _ k _ := everywhere_primitive.2 ⟨rfl, rfl⟩
  object name members fields _ parts := by
    refine everywhere_record.2 ⟨⟨rfl, rfl⟩, fun f t hmem => ?_⟩
    obtain ⟨_, _, _, h⟩ := exists_left_of_mem parts (Record.mem_of_mem_sortFields hmem)
    exact h
  array name elements types items parts _ joined := by
    rw [lenient] at joined
    cases (Lenient.joinAll_eq types).symm.trans joined
    refine everywhere_array.2 ⟨⟨rfl, rfl⟩, ?_⟩
    apply everywhere_majority
    · exact fun k => ⟨rfl, rfl⟩
    · intro n s t h
      cases n <;> exact h
    · exact fun n fields _ => ⟨rfl, rfl⟩
    · intro t ht
      obtain ⟨_, _, h⟩ := exists_left_of_mem parts ht
      exact h

/--
Lenient inference succeeds exactly where nothing stands too deep, all members have names
and an object that arrays alone lead to can be named.  It fails in no other way, what it
gives holds neither unions nor arrays with names, and of no types does a majority need a
vote, a part or a field that is not there.
-/
theorem infer_lenient_succeeds_iff {limit depth : Int} {name path : Text} {v : Json} :
    ((∃ t, infer ⟨.lenient, limit⟩ name path depth v = .ok t) ↔
      v.WithinDepth limit depth ∧ v.NamedMembers ∧ (name ≠ [] ∨ ¬v.HasOuterObject)) ∧
    (∀ e, infer ⟨.lenient, limit⟩ name path depth v = .error e → e.IsNamingOrDepth) ∧
    (∀ t, infer ⟨.lenient, limit⟩ name path depth v = .ok t → t.Everywhere StandsForItself) ∧
    ∀ types, ∃ t, Lenient.resolve types = .ok t := by
  refine ⟨exists_infer_lenient v, fun e h => isNamingOrDepth_of_infer h, fun t h => ?_,
    fun types => ⟨majority types, Lenient.resolve_eq types⟩⟩
  have everywhere : v.EveryArray (fun _ _ => True) ⟨.lenient, limit⟩ name path depth :=
    v.everyArray_of_forall fun _ _ => trivial
  exact (inferenceInvariant_standsForItself rfl).infer everywhere h

end SchemaInference
