import Mathlib.Data.List.Forall2
import SchemaInference.Inference
import SchemaInference.Proofs.Fields
import SchemaInference.Proofs.Folds

/-!
# Induction over documents

What a successful inference went through: the kinds of scalars, the fields of objects
and the element types of arrays.  `InferenceInvariant` is the induction over all of it, and
`Json.EveryArray` states a condition on the element types of every array of a document.
-/

namespace SchemaInference

section Outcomes
variable {α : Type} {path : Text} {a : α}

@[simp] theorem locate_eq_ok {outcome : Except Failure α} :
    locate path outcome = .ok a ↔ outcome = .ok a := by
  cases outcome <;> simp [locate]

@[simp] theorem require_eq_ok {condition : Bool} {failure : Failure} {done : Unit} :
    require condition failure path = .ok done ↔ condition = true := by
  cases condition <;> simp [require, locate]

end Outcomes

section Pairing
variable {α β : Type} {R : α → β → Prop} {xs : List α} {ys : List β}

theorem exists_right_of_mem (h : List.Forall₂ R xs ys) {x : α} (hx : x ∈ xs) :
    ∃ y ∈ ys, R x y := by
  induction h with
  | nil => cases hx
  | cons hxy _ ih =>
    rcases List.mem_cons.1 hx with rfl | hx
    · exact ⟨_, List.mem_cons_self, hxy⟩
    · obtain ⟨y, hy, h⟩ := ih hx
      exact ⟨y, List.mem_cons_of_mem _ hy, h⟩

theorem exists_left_of_mem (h : List.Forall₂ R xs ys) {y : β} (hy : y ∈ ys) :
    ∃ x ∈ xs, R x y :=
  exists_right_of_mem h.flip hy

theorem map_eq_map_of_forall₂ {γ : Type} {key : α → γ} {key' : β → γ}
    (h : List.Forall₂ (fun x y => key x = key' y) xs ys) : xs.map key = ys.map key' := by
  induction h with
  | nil => rfl
  | cons hxy _ ih => rw [List.map_cons, List.map_cons, hxy, ih]

variable {S : Text → Json → Schema → Prop} {members : List (Text × Json)}
  {fields : List (Text × Schema)} {key : Text} {t : Schema} {v : Json}

/-- A field of the record of an object is the field of one of its members. -/
theorem exists_member_of_field? {name : Text}
    (h : List.Forall₂ (fun member field => member.1 = field.1 ∧ S member.1 member.2 field.2)
      members fields)
    (found : (Record.ofFields name fields).field? key = some t) :
    ∃ v, (key, v) ∈ members ∧ S key v t := by
  obtain ⟨⟨other, v⟩, hmem, rfl, hv⟩ :=
    exists_left_of_mem h (Record.mem_of_mem_sortFields (mem_of_lookup found))
  exact ⟨v, hmem, hv⟩

/-- A member of an object whose names are distinct is found in the record of the object. -/
theorem exists_field?_of_member (name : Text)
    (h : List.Forall₂ (fun member field => member.1 = field.1 ∧ S member.1 member.2 field.2)
      members fields)
    (distinct : (members.map Prod.fst).Nodup) (hmem : (key, v) ∈ members) :
    ∃ t, (Record.ofFields name fields).field? key = some t ∧ S key v t := by
  have names : members.map Prod.fst = fields.map Prod.fst :=
    map_eq_map_of_forall₂ (h.imp fun _ _ hm => hm.1)
  obtain ⟨⟨other, t⟩, hfield, rfl, ht⟩ := exists_right_of_mem h hmem
  refine ⟨t, ?_, ht⟩
  rw [names] at distinct
  exact (Record.lookup_sortFields distinct _).trans (lookup_of_mem_of_nodup distinct hfield)

end Pairing

section Steps
variable {settings : Settings} {name path : Text} {depth : Int} {t : Schema}

theorem infer_scalar_eq_ok {s : Scalar} : infer settings name path depth (.scalar s) = .ok t ↔
    depth ≤ settings.maxDepth ∧ ∃ k, s.kind settings.mode = .ok k ∧ t = .primitive k := by
  simp [infer, bind_eq_ok, pure, Except.pure, @eq_comm _ t]

theorem infer_object_eq_ok {members : List (Text × Json)} :
    infer settings name path depth (.object members) = .ok t ↔
      depth ≤ settings.maxDepth ∧ name ≠ [] ∧ ∃ fields,
        inferMembers settings path depth members = .ok fields ∧
          t = (Record.ofFields name fields).schema := by
  simp [infer, bind_eq_ok, pure, Except.pure, @eq_comm _ t]

theorem infer_array_eq_ok {elements : List Json} :
    infer settings name path depth (.array elements) = .ok t ↔
      depth ≤ settings.maxDepth ∧ ∃ types items,
        inferElements settings name path depth 0 elements = .ok types ∧
          joinAll settings.mode types = .ok items ∧ t = .array none items := by
  have mapError {x : Except Disagreement Schema} {items : Schema} :
      x.mapError Failure.disagreement = .ok items ↔ x = .ok items := by
    cases x <;> simp [Except.mapError]
  simp [infer, bind_eq_ok, pure, Except.pure, mapError, @eq_comm _ t]

theorem inferMembers_cons_eq_ok {key : Text} {v : Json} {rest : List (Text × Json)}
    {fields : List (Text × Schema)} :
    inferMembers settings path depth ((key, v) :: rest) = .ok fields ↔
      key ≠ [] ∧ ∃ t later, infer settings key (memberPath path key) (depth + 1) v = .ok t ∧
        inferMembers settings path depth rest = .ok later ∧ fields = (key, t) :: later := by
  simp [inferMembers, bind_eq_ok, pure, Except.pure, @eq_comm _ fields]

theorem inferElements_cons_eq_ok {index : Nat} {v : Json} {rest : List Json}
    {types : List Schema} :
    inferElements settings name path depth index (v :: rest) = .ok types ↔
      ∃ t later, infer settings name (elementPath path index) (depth + 1) v = .ok t ∧
        inferElements settings name path depth (index + 1) rest = .ok later ∧
          types = t :: later := by
  simp [inferElements, bind_eq_ok, pure, Except.pure, @eq_comm _ types]

end Steps

section Paths
variable {settings : Settings}

mutual

/-- The path of a value matters for the report of a failure only. -/
theorem infer_path {name path : Text} (path' : Text) {depth : Int} :
    ∀ {v : Json} {t : Schema}, infer settings name path depth v = .ok t →
      infer settings name path' depth v = .ok t
  | .scalar s, t, h => infer_scalar_eq_ok.2 (infer_scalar_eq_ok.1 h)
  | .object members, t, h => by
      obtain ⟨shallow, named, fields, found, rfl⟩ := infer_object_eq_ok.1 h
      exact infer_object_eq_ok.2 ⟨shallow, named, fields, inferMembers_path path' found, rfl⟩
  | .array elements, t, h => by
      obtain ⟨shallow, types, items, found, joined, rfl⟩ := infer_array_eq_ok.1 h
      exact infer_array_eq_ok.2
        ⟨shallow, types, items, inferElements_path path' 0 found, joined, rfl⟩

theorem inferMembers_path {path : Text} (path' : Text) {depth : Int} :
    ∀ {members : List (Text × Json)} {fields : List (Text × Schema)},
      inferMembers settings path depth members = .ok fields →
      inferMembers settings path' depth members = .ok fields
  | [], fields, h => h
  | (key, v) :: rest, fields, h => by
      obtain ⟨used, t, later, ht, hlater, rfl⟩ := inferMembers_cons_eq_ok.1 h
      exact inferMembers_cons_eq_ok.2 ⟨used, t, later, infer_path _ ht,
        inferMembers_path path' hlater, rfl⟩

theorem inferElements_path {name path : Text} (path' : Text) {depth : Int} {index : Nat}
    (index' : Nat) : ∀ {elements : List Json} {types : List Schema},
      inferElements settings name path depth index elements = .ok types →
      inferElements settings name path' depth index' elements = .ok types
  | [], types, h => h
  | v :: rest, types, h => by
      obtain ⟨t, later, ht, hlater, rfl⟩ := inferElements_cons_eq_ok.1 h
      exact inferElements_cons_eq_ok.2 ⟨t, later, infer_path _ ht,
        inferElements_path path' (index' + 1) hlater, rfl⟩

end

theorem inferElements_eq_ok {name path : Text} {depth : Int} {index : Nat}
    {elements : List Json} {types : List Schema} :
    inferElements settings name path depth index elements = .ok types ↔
      List.Forall₂ (fun v t => infer settings name path (depth + 1) v = .ok t) elements types := by
  induction elements generalizing index types with
  | nil => cases types <;> simp [inferElements]
  | cons v rest ih =>
    rw [inferElements_cons_eq_ok, List.forall₂_cons_left_iff]
    constructor
    · rintro ⟨t, later, ht, hlater, rfl⟩
      exact ⟨t, later, infer_path path ht, ih.1 hlater, rfl⟩
    · rintro ⟨t, later, ht, hlater, rfl⟩
      exact ⟨t, later, infer_path _ ht, ih.2 hlater, rfl⟩

theorem inferMembers_eq_ok {path : Text} {depth : Int} {members : List (Text × Json)}
    {fields : List (Text × Schema)} :
    inferMembers settings path depth members = .ok fields ↔
      List.Forall₂ (fun member field => member.1 ≠ [] ∧ member.1 = field.1 ∧
        infer settings member.1 path (depth + 1) member.2 = .ok field.2) members fields := by
  induction members generalizing fields with
  | nil => cases fields <;> simp [inferMembers]
  | cons member rest ih =>
    obtain ⟨key, v⟩ := member
    rw [inferMembers_cons_eq_ok, List.forall₂_cons_left_iff]
    constructor
    · rintro ⟨used, t, later, ht, hlater, rfl⟩
      exact ⟨(key, t), later, ⟨used, rfl, infer_path path ht⟩, ih.1 hlater, rfl⟩
    · rintro ⟨⟨_, t⟩, later, ⟨used, rfl, ht⟩, hlater, rfl⟩
      exact ⟨used, t, later, infer_path _ ht, ih.2 hlater, rfl⟩

end Paths

mutual

/--
Whether `p` holds of the elements of every array in the value at `path` and `depth` and
of their types, as far as these are inferred.
-/
def Json.EveryArray (p : List Json → List Schema → Prop) (settings : Settings) (name path : Text)
    (depth : Int) : Json → Prop
  | .scalar _ => True
  | .object members => EveryArrayOfMembers p settings path depth members
  | .array elements =>
    (∀ types, inferElements settings name path depth 0 elements = .ok types → p elements types) ∧
      EveryArrayOfElements p settings name path depth 0 elements

def Json.EveryArrayOfMembers (p : List Json → List Schema → Prop) (settings : Settings)
    (path : Text) (depth : Int) : List (Text × Json) → Prop
  | [] => True
  | (key, v) :: rest =>
    v.EveryArray p settings key (memberPath path key) (depth + 1) ∧
      EveryArrayOfMembers p settings path depth rest

def Json.EveryArrayOfElements (p : List Json → List Schema → Prop) (settings : Settings)
    (name path : Text) (depth : Int) (index : Nat) : List Json → Prop
  | [] => True
  | v :: rest =>
    v.EveryArray p settings name (elementPath path index) (depth + 1) ∧
      EveryArrayOfElements p settings name path depth (index + 1) rest

end

section Decidable
variable {p : List Json → List Schema → Prop} [∀ elements types, Decidable (p elements types)]

mutual

def Json.decidableEveryArray (settings : Settings) (name path : Text) (depth : Int) :
    (v : Json) → Decidable (v.EveryArray p settings name path depth)
  | .scalar _ => inferInstanceAs (Decidable True)
  | .object members => decidableEveryArrayOfMembers settings path depth members
  | .array elements =>
    have := decidableEveryArrayOfElements settings name path depth 0 elements
    inferInstanceAs (Decidable ((∀ types, _ → p elements types) ∧ EveryArrayOfElements p ..))

def Json.decidableEveryArrayOfMembers (settings : Settings) (path : Text) (depth : Int) :
    (members : List (Text × Json)) → Decidable (EveryArrayOfMembers p settings path depth members)
  | [] => inferInstanceAs (Decidable True)
  | (key, v) :: rest =>
    have := v.decidableEveryArray settings key (memberPath path key) (depth + 1)
    have := decidableEveryArrayOfMembers settings path depth rest
    inferInstanceAs (Decidable (EveryArray p .. ∧ EveryArrayOfMembers p ..))

def Json.decidableEveryArrayOfElements (settings : Settings) (name path : Text) (depth : Int)
    (index : Nat) : (elements : List Json) →
      Decidable (EveryArrayOfElements p settings name path depth index elements)
  | [] => inferInstanceAs (Decidable True)
  | v :: rest =>
    have := v.decidableEveryArray settings name (elementPath path index) (depth + 1)
    have := decidableEveryArrayOfElements settings name path depth (index + 1) rest
    inferInstanceAs (Decidable (EveryArray p .. ∧ EveryArrayOfElements p ..))

end

instance (settings : Settings) (name path : Text) (depth : Int) (v : Json) :
    Decidable (v.EveryArray p settings name path depth) :=
  v.decidableEveryArray settings name path depth

end Decidable

section EveryArray
variable {p : List Json → List Schema → Prop} {settings : Settings}

mutual

theorem Json.everyArray_of_forall (all : ∀ elements types, p elements types)
    {name path : Text} {depth : Int} : ∀ v : Json, v.EveryArray p settings name path depth
  | .scalar _ => trivial
  | .object members => everyArrayOfMembers_of_forall all members
  | .array elements =>
    ⟨fun types _ => all elements types, everyArrayOfElements_of_forall all elements⟩

theorem Json.everyArrayOfMembers_of_forall (all : ∀ elements types, p elements types) {path : Text}
    {depth : Int} :
    ∀ members : List (Text × Json), EveryArrayOfMembers p settings path depth members
  | [] => trivial
  | (_, v) :: rest => ⟨v.everyArray_of_forall all, everyArrayOfMembers_of_forall all rest⟩

theorem Json.everyArrayOfElements_of_forall (all : ∀ elements types, p elements types)
    {name path : Text} {depth : Int} {index : Nat} :
    ∀ elements : List Json, EveryArrayOfElements p settings name path depth index elements
  | [] => trivial
  | v :: rest => ⟨v.everyArray_of_forall all, everyArrayOfElements_of_forall all rest⟩

end

theorem Json.everyArray_array_of_eq_ok {name path : Text} {depth : Int} {elements : List Json}
    {types : List Schema} (found : inferElements settings name path depth 0 elements = .ok types)
    (here : p elements types)
    (below : EveryArrayOfElements p settings name path depth 0 elements) :
    (Json.array elements).EveryArray p settings name path depth := by
  refine ⟨fun others h => ?_, below⟩
  cases found.symm.trans h
  exact here

end EveryArray

/--
What the steps of inference keep: `motive name v t` says of the schema `t` of a value `v`,
whose records are called `name`, what is claimed, `p` being known of the elements of every
array and their types.
-/
structure InferenceInvariant (settings : Settings) (p : List Json → List Schema → Prop)
    (motive : Text → Json → Schema → Prop) : Prop where
  scalar : ∀ name s k, s.kind settings.mode = .ok k → motive name (.scalar s) (.primitive k)
  object : ∀ name members fields, name ≠ [] →
    List.Forall₂ (fun member field => member.1 = field.1 ∧ motive member.1 member.2 field.2)
      members fields →
    motive name (.object members) (Record.ofFields name fields).schema
  array : ∀ name elements types items, List.Forall₂ (motive name) elements types →
    p elements types → joinAll settings.mode types = .ok items →
    motive name (.array elements) (.array none items)

namespace InferenceInvariant
variable {settings : Settings} {p : List Json → List Schema → Prop}
  {motive : Text → Json → Schema → Prop}

mutual

/-- What every step keeps holds of every document whose schema is inferred. -/
theorem infer (inv : InferenceInvariant settings p motive) {name path : Text} {depth : Int} :
    ∀ {v : Json} {t : Schema}, v.EveryArray p settings name path depth →
      SchemaInference.infer settings name path depth v = .ok t → motive name v t
  | .scalar s, t, _, h => by
      obtain ⟨_, k, hk, rfl⟩ := infer_scalar_eq_ok.1 h
      exact inv.scalar name s k hk
  | .object members, t, hp, h => by
      obtain ⟨_, named, fields, hfields, rfl⟩ := infer_object_eq_ok.1 h
      rw [Json.EveryArray] at hp
      exact inv.object name members fields named (inv.inferMembers hp hfields)
  | .array elements, t, hp, h => by
      obtain ⟨_, types, items, htypes, hitems, rfl⟩ := infer_array_eq_ok.1 h
      rw [Json.EveryArray] at hp
      exact inv.array name elements types items (inv.inferElements hp.2 htypes)
        (hp.1 types htypes) hitems

theorem inferMembers (inv : InferenceInvariant settings p motive) {path : Text} {depth : Int} :
    ∀ {members : List (Text × Json)} {fields : List (Text × Schema)},
    Json.EveryArrayOfMembers p settings path depth members →
      SchemaInference.inferMembers settings path depth members = .ok fields →
      List.Forall₂ (fun member field => member.1 = field.1 ∧ motive member.1 member.2 field.2)
        members fields
  | [], fields, _, h => by
      cases h
      exact .nil
  | (key, v) :: rest, fields, hp, h => by
      obtain ⟨_, t, later, ht, hlater, rfl⟩ := inferMembers_cons_eq_ok.1 h
      rw [Json.EveryArrayOfMembers] at hp
      exact .cons ⟨rfl, inv.infer hp.1 ht⟩ (inv.inferMembers hp.2 hlater)

theorem inferElements (inv : InferenceInvariant settings p motive) {name path : Text}
    {depth : Int} {index : Nat} :
    ∀ {elements : List Json} {types : List Schema},
    Json.EveryArrayOfElements p settings name path depth index elements →
      SchemaInference.inferElements settings name path depth index elements = .ok types →
      List.Forall₂ (motive name) elements types
  | [], types, _, h => by
      cases h
      exact .nil
  | v :: rest, types, hp, h => by
      obtain ⟨t, later, ht, hlater, rfl⟩ := inferElements_cons_eq_ok.1 h
      rw [Json.EveryArrayOfElements] at hp
      exact .cons (inv.infer hp.1 ht) (inv.inferElements hp.2 hlater)

end

end InferenceInvariant

end SchemaInference
