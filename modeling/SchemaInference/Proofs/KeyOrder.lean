import Mathlib.Data.List.Perm.Basic
import SchemaInference.Batch
import SchemaInference.Proofs.Documents

/-!
# The order of keys

Records list their fields in ascending order, so that what is inferred does not depend on
the order in which objects name their members.
-/

namespace SchemaInference

/-- Whether two values differ in the order of the keys of objects only, the keys being distinct. -/
inductive Json.SameUpToKeyOrder : Json → Json → Prop where
  | scalar (s : Scalar) : SameUpToKeyOrder (.scalar s) (.scalar s)
  | array {vs ws : List Json} (length : vs.length = ws.length)
    (elements : ∀ (i : Nat) v w, vs[i]? = some v → ws[i]? = some w → SameUpToKeyOrder v w) :
    SameUpToKeyOrder (.array vs) (.array ws)
  | object {ms ns : List (Text × Json)} (distinct : (ms.map Prod.fst).Nodup)
    (keys : (ms.map Prod.fst).Perm (ns.map Prod.fst))
    (values : ∀ f v w, (f, v) ∈ ms → (f, w) ∈ ns → SameUpToKeyOrder v w) :
    SameUpToKeyOrder (.object ms) (.object ns)

theorem Json.SameUpToKeyOrder.symm {v w : Json} (h : v.SameUpToKeyOrder w) :
    w.SameUpToKeyOrder v := by
  induction h with
  | scalar s => exact .scalar s
  | array length _ ih => exact .array length.symm fun i w v hw hv => ih i v w hv hw
  | object distinct keys _ ih =>
    exact .object (keys.nodup_iff.1 distinct) keys.symm fun f w v hw hv => ih f v w hv hw

section Pairing
variable {α β γ : Type}

/-- Partners of the members of a list are partners of what stands in their places. -/
theorem forall₂_of_places {R : α → β → Prop} {S : γ → β → Prop} {xs : List α} {zs : List γ}
    {ys : List β} (h : List.Forall₂ R xs ys) (length : xs.length = zs.length)
    (places : ∀ (i : Nat) x z y, xs[i]? = some x → zs[i]? = some z → R x y → S z y) :
    List.Forall₂ S zs ys := by
  induction h generalizing zs with
  | nil =>
    cases List.length_eq_zero_iff.1 length.symm
    exact .nil
  | @cons x y xs ys hxy _ ih =>
    cases zs with
    | nil => cases length
    | cons z zs =>
      refine .cons (places 0 x z y rfl rfl hxy) (ih (Nat.succ.inj length) ?_)
      exact fun i x z y hx hz => places (i + 1) x z y hx hz

/-- Lists with the same keys can be brought into the same order. -/
theorem exists_perm_of_keys {key : α → γ} {key' : β → γ} {xs : List α} {ys : List β}
    (keys : (xs.map key).Perm (ys.map key')) :
    ∃ zs : List α, zs.Perm xs ∧ zs.map key = ys.map key' := by
  have own : List.Forall₂ (fun k x => k = key x) (xs.map key) xs :=
    List.forall₂_map_left_iff.2 (List.forall₂_same.2 fun _ _ => rfl)
  obtain ⟨zs, same, perm⟩ := List.perm_comp_forall₂ keys.symm own
  refine ⟨zs, perm, (map_eq_map_of_forall₂ ?_).symm⟩
  exact List.forall₂_map_left_iff.1 same

end Pairing

/-- What is inferred of a value is inferred of every reordering of it. -/
theorem infer_of_sameUpToKeyOrder {settings : Settings} {v w : Json}
    (same : v.SameUpToKeyOrder w) {name path : Text} {depth : Int} {t : Schema}
    (h : infer settings name path depth v = .ok t) :
    infer settings name path depth w = .ok t := by
  induction same generalizing name path depth t with
  | scalar s => exact h
  | array length _ ih =>
    obtain ⟨shallow, types, items, found, joined, rfl⟩ := infer_array_eq_ok.1 h
    refine infer_array_eq_ok.2 ⟨shallow, types, items, inferElements_eq_ok.2 ?_, joined, rfl⟩
    refine forall₂_of_places (inferElements_eq_ok.1 found) length ?_
    exact fun i v w t hv hw ht => ih i v w hv hw ht
  | @object ms ns distinct keys _ ih =>
    obtain ⟨shallow, named, fields, found, rfl⟩ := infer_object_eq_ok.1 h
    -- the members in the order of the other object, and their fields in that order
    obtain ⟨moved, perm, aligned⟩ := exists_perm_of_keys keys
    obtain ⟨fields', paired, permuted⟩ :=
      List.perm_comp_forall₂ perm (inferMembers_eq_ok.1 found)
    have fieldsOf : inferMembers settings path depth ns = .ok fields' := by
      refine inferMembers_eq_ok.2 (forall₂_of_places paired ?_ ?_)
      · simpa using congrArg List.length aligned
      · rintro i ⟨f, v⟩ ⟨g, w⟩ ⟨k, t⟩ hv hw ⟨used, rfl, ht⟩
        have key : f = g := by
          have := congrArg (·[i]?) aligned
          simpa [hv, hw] using this
        subst key
        have hv := perm.mem_iff.1 (List.mem_of_getElem? hv)
        exact ⟨used, rfl, ih f v w hv (List.mem_of_getElem? hw) ht⟩
    refine infer_object_eq_ok.2 ⟨shallow, named, fields', fieldsOf, ?_⟩
    have names : moved.map Prod.fst = fields'.map Prod.fst :=
      map_eq_map_of_forall₂ (paired.imp fun _ _ h => h.2.1)
    have distinct' : (fields'.map Prod.fst).Nodup := by
      rw [← names, (perm.map Prod.fst).nodup_iff]
      exact distinct
    rw [Record.ofFields, Record.ofFields, Record.sortFields_perm permuted distinct']

section Batches
variable {settings : Settings} {name : Text} {v w : Json}

theorem toOption_eq_some {ε α : Type} {x : Except ε α} {a : α} :
    x.toOption = some a ↔ x = .ok a := by
  cases x <;> simp [Except.toOption]

theorem match?_eq (r : MessageOutcome) : r.match? = r.outcome.toOption.map (⟨r.index, ·⟩) := by
  obtain ⟨index, outcome⟩ := r
  cases outcome <;> rfl

theorem match?_of_sameUpToKeyOrder (same : v.SameUpToKeyOrder w) (index : Int) :
    (inferMessage settings name index (.ofJson v)).match? =
      (inferMessage settings name index (.ofJson w)).match? := by
  have inferred : (inferDocument settings name v).toOption =
      (inferDocument settings name w).toOption := by
    ext t
    rw [toOption_eq_some, toOption_eq_some]
    exact ⟨infer_of_sameUpToKeyOrder same, infer_of_sameUpToKeyOrder same.symm⟩
  cases same with
  | scalar s => rfl
  | array => rw [match?_eq, match?_eq]; exact congrArg _ inferred
  | object => rw [match?_eq, match?_eq]; exact congrArg _ inferred

theorem matches_of_sameUpToKeyOrder {vs ws : List Json}
    (same : List.Forall₂ Json.SameUpToKeyOrder vs ws) (index : Int) :
    (inferMessages settings name index (vs.map .ofJson)).filterMap MessageOutcome.match? =
      (inferMessages settings name index (ws.map .ofJson)).filterMap MessageOutcome.match? := by
  induction same generalizing index with
  | nil => rfl
  | cons first _ ih =>
    simp only [List.map_cons, inferMessages, List.filterMap_cons,
      match?_of_sameUpToKeyOrder first, ih]

end Batches

/--
The order of keys does not matter: documents that differ in it have the same schema or
none, and so batches of such documents give the same entries or none.
-/
theorem infer_eq_of_sameUpToKeyOrder {settings : Settings} {name : Text} :
    (∀ v w : Json, v.SameUpToKeyOrder w → ∀ path depth t,
      infer settings name path depth v = .ok t ↔ infer settings name path depth w = .ok t) ∧
    ∀ vs ws : List Json, List.Forall₂ Json.SameUpToKeyOrder vs ws → ∀ limit,
      inferBatch settings name limit (vs.map .ofJson) =
        inferBatch settings name limit (ws.map .ofJson) := by
  constructor
  · intro v w same path depth t
    exact ⟨infer_of_sameUpToKeyOrder same, infer_of_sameUpToKeyOrder same.symm⟩
  · intro vs ws same limit
    have length : (vs.map Message.ofJson).length = (ws.map Message.ofJson).length := by
      simpa using same.length_eq
    unfold inferBatch groupOutcomes
    rw [matches_of_sameUpToKeyOrder same, length]

/-- Rows that name their fields in another order are of the same schema. -/
theorem infer_eq_of_sameUpToKeyOrder_rows :
    let v : Json := .array [.object [("a", .integer 1), ("b", .array [.object []])]]
    let w : Json := .array [.object [("b", .array [.object []]), ("a", .integer 1)]]
    (∀ path depth t, infer {} "r" path depth v = .ok t ↔ infer {} "r" path depth w = .ok t) ∧
      ∀ limit, inferBatch {} "r" limit [.value v, .value w] =
        inferBatch {} "r" limit [.value w, .value v] := by
  intro v w
  have row : Json.SameUpToKeyOrder (.object [("a", .integer 1), ("b", .array [.object []])])
      (.object [("b", .array [.object []]), ("a", .integer 1)]) := by
    have empty : Json.SameUpToKeyOrder (.object []) (.object []) :=
      .object .nil .nil fun f x y hx => nomatch hx
    refine .object (by decide) (by decide) fun f x y hx hy => ?_
    simp only [List.mem_cons, Prod.mk.injEq, List.not_mem_nil, or_false] at hx hy
    rcases hx with ⟨rfl, rfl⟩ | ⟨rfl, rfl⟩ <;> rcases hy with ⟨h, rfl⟩ | ⟨h, rfl⟩
    · exact absurd h (by decide)
    · exact .scalar _
    · refine .array rfl fun i x y hx hy => ?_
      cases hx.symm.trans hy
      rw [List.mem_singleton.1 (List.mem_of_getElem? hx)]
      exact empty
    · exact absurd h (by decide)
  have same : v.SameUpToKeyOrder w := by
    refine .array rfl fun i x y hx hy => ?_
    rw [List.mem_singleton.1 (List.mem_of_getElem? hx),
      List.mem_singleton.1 (List.mem_of_getElem? hy)]
    exact row
  obtain ⟨single, batch⟩ := @infer_eq_of_sameUpToKeyOrder {} "r"
  exact ⟨single v w same, batch [v, w] [w, v] (.cons same (.cons same.symm .nil))⟩

end SchemaInference
