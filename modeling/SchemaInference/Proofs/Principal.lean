import SchemaInference.Proofs.Collections
import SchemaInference.Proofs.Fits
import SchemaInference.Proofs.Objects

/-!
# Principal schemas

Where the element types of every array are mergeable and hold no unions, the inferred
schema is the narrowest one of its document: the document fits it, and it is below every
schema without unions that the document fits and whose records are named alike.
-/

namespace SchemaInference

open Schema

/-- Types without unions of which any two merge. -/
def SimpleTypes (types : List Schema) : Prop :=
  (∀ t ∈ types, t.UnionFree) ∧ ∀ s ∈ types, ∀ t ∈ types, Mergeable s t

instance (types : List Schema) : Decidable (SimpleTypes types) :=
  inferInstanceAs (Decidable (_ ∧ _))

/-- `t` is the narrowest schema of the document `v` whose records are called after `name`. -/
structure Json.IsPrincipal (name : Text) (v : Json) (t : Schema) : Prop where
  canonical : t.Canonical
  unionFree : t.UnionFree
  naming : t.FollowsNaming name
  fits : v.FitsUntagged t
  least : ∀ u : Schema, u.UnionFree → u.FollowsNaming name → v.FitsUntagged u → t ≤ u

namespace Json.IsPrincipal
variable {name : Text}

theorem scalar {s : Scalar} {k : Kind} (h : s.kind .strict = .ok k) :
    IsPrincipal name (.scalar s) (.primitive k) where
  canonical := canonical_primitive k
  unionFree := unionFree_primitive k
  naming := followsNaming_primitive k
  fits := .scalar (Scalar.fits_kind h)
  least u free _ hu := by
    cases hu with
    | null => cases h; exact null_le u
    | scalar fits => exact primitive_le_primitive.2 (Scalar.kind_fits h fits)
    | branch => exact absurd free (not_unionFree_union _)

theorem object {members : List (Text × Json)} {fields : List (Text × Schema)}
    (distinct : (members.map Prod.fst).Nodup)
    (parts : List.Forall₂ (fun m f => m.1 = f.1 ∧ IsPrincipal m.1 m.2 f.2) members fields) :
    IsPrincipal name (.object members) (Record.ofFields name fields).schema := by
  have asc : Ascending (Record.ofFields name fields).fields := Record.ascending_sortFields fields
  have part {f : Text} {t : Schema} (found : (Record.ofFields name fields).field? f = some t) :
      ∃ v, (f, v) ∈ members ∧ IsPrincipal f v t := exists_member_of_field? parts found
  refine ⟨?_, ?_, ?_, .object (fun f v hmem => ?_) fun f v t hmem found => ?_,
    fun u free follows hu => ?_⟩
  · refine Record.canonical_schema.2 ⟨asc, fun f t found => ?_⟩
    obtain ⟨v, _, hv⟩ := part found
    exact hv.canonical
  · refine (unionFree_record asc).2 fun f t found => ?_
    obtain ⟨v, _, hv⟩ := part found
    exact hv.unionFree
  · refine (followsNaming_record asc).2 ⟨rfl, fun f t found => ?_⟩
    obtain ⟨v, _, hv⟩ := part found
    exact hv.naming
  · obtain ⟨t, found, _⟩ := exists_field?_of_member name parts distinct hmem
    exact ⟨t, found⟩
  · obtain ⟨s, again, hs⟩ := exists_field?_of_member name parts distinct hmem
    cases found.symm.trans again
    exact hs.fits
  · cases hu with
    | @object _ m gs known fits =>
      rw [FollowsNaming] at follows
      refine (record_le_record asc).2 ⟨follows.1.symm, fun f s found => ?_⟩
      obtain ⟨v, hmem, hv⟩ := part found
      obtain ⟨t, foundt⟩ := known f v hmem
      exact ⟨t, foundt, hv.least t (free.field foundt) (follows.2.lookup foundt)
        (fits f v t hmem foundt)⟩
    | branch => exact absurd free (not_unionFree_union _)
    | tagged read => exact read.elim

theorem array {elements : List Json} {types : List Schema} {items : Schema}
    (parts : List.Forall₂ (IsPrincipal name) elements types)
    (mergeable : ∀ s ∈ types, ∀ t ∈ types, Mergeable s t)
    (joined : Strict.joinAllWith Strict.join types = .ok items) :
    IsPrincipal name (.array elements) (.array none items) := by
  have part {t : Schema} (ht : t ∈ types) : ∃ v ∈ elements, IsPrincipal name v t :=
    exists_left_of_mem parts ht
  have free : ∀ t ∈ types, t.UnionFree := by
    intro t ht
    obtain ⟨v, _, hv⟩ := part ht
    exact hv.unionFree
  have bound : IsJoinOf types items := by
    refine (Strict.joins_join (branchesHeight types)).isJoinOf_joinAllWith (fun t ht => ?_)
      (fun t => height_le_branchesHeight) (fun t ht => (free t ht).self)
      (fun s hs t ht => (mergeable s hs t ht).mono False.elim) joined
    obtain ⟨v, _, hv⟩ := part ht
    exact hv.canonical
  refine ⟨canonical_array.2 bound.canonical, unionFree_array.2 (bound.unionFree free), ?_,
    .array fun v hv => ?_, fun u free follows hu => ?_⟩
  · refine followsNaming_array.2 ⟨rfl, bound.naming name fun t ht => ?_⟩
    obtain ⟨v, _, hv⟩ := part ht
    exact hv.naming
  · obtain ⟨t, ht, hvt⟩ := exists_right_of_mem parts hv
    exact hvt.fits.mono (bound.upper t ht)
  · cases hu with
    | @array _ m inner fits =>
      obtain ⟨rfl, named⟩ := followsNaming_array.1 follows
      refine array_le_array.2 ⟨.inl rfl, bound.least inner fun t ht => ?_⟩
      obtain ⟨v, hv, hvt⟩ := part ht
      exact hvt.least inner free.items named (fits v hv)
    | branch => exact absurd free (not_unionFree_union _)

end Json.IsPrincipal

theorem inferenceInvariant_isPrincipal {settings : Settings} (strict : settings.mode = .strict) :
    InferenceInvariant settings (fun _ => SimpleTypes) fun name v t =>
      v.DistinctNames → v.IsPrincipal name t where
  scalar name s k hk _ := .scalar (strict ▸ hk)
  object name members fields _ parts distinct := by
    obtain ⟨names, inner⟩ := Json.everyObject_object.1 distinct
    refine .object names (((List.forall₂_and_left _ _).2 ⟨inner, parts⟩).imp ?_)
    exact fun m f ⟨hm, same, principal⟩ => ⟨same, principal hm⟩
  array name elements types items parts simple joined distinct := by
    have inner := Json.everyObject_array.1 distinct
    refine .array (((List.forall₂_and_left _ _).2 ⟨inner, parts⟩).imp ?_) simple.2
      (by rwa [strict] at joined)
    exact fun v t ⟨hv, principal⟩ => principal hv

/--
Where the element types of every array have no unions and merge pairwise, the inferred
schema is the least among those without unions that follow the naming and that the
document fits.
-/
theorem infer_isLeast {settings : Settings} (strict : settings.mode = .strict)
    {name path : Text} {depth : Int} {v : Json} {t : Schema} (distinct : v.DistinctNames)
    (simple : v.EveryArray (fun _ => SimpleTypes) settings name path depth)
    (inferred : infer settings name path depth v = .ok t) :
    (t.UnionFree ∧ t.FollowsNaming name ∧ v.FitsUntagged t) ∧
      ∀ u : Schema, u.UnionFree → u.FollowsNaming name → v.FitsUntagged u → t ≤ u := by
  have principal := (inferenceInvariant_isPrincipal strict).infer simple inferred distinct
  exact ⟨⟨principal.unionFree, principal.naming, principal.fits⟩, principal.least⟩

/-- Missing fields, nulls and wide numbers meet in the least schema. -/
theorem infer_isLeast_of_optional_fields :
    let v : Json := .array [.object [("a", .integer 1)],
      .object [("a", .integer 5000000000), ("b", .array [.scalar .null, .scalar (.real "2.5")])],
      .object []]
    let t : Schema := .array none (.record "r" [("a", .primitive .long),
      ("b", .array none (.primitive .double))])
    (t.UnionFree ∧ t.FollowsNaming "r" ∧ v.FitsUntagged t) ∧
      ∀ u : Schema, u.UnionFree → u.FollowsNaming "r" → v.FitsUntagged u → t ≤ u := by
  intro v t
  have inferred : infer {} "r" "r" 0 v = .ok t := rfl
  exact infer_isLeast rfl (by decide) (by decide) inferred

end SchemaInference
