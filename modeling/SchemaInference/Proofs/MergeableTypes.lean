import Mathlib.Data.List.Pairwise
import SchemaInference.Join
import SchemaInference.Proofs.Collections

/-!
# Collections of mergeable types

Types without unions of which any two merge have a least upper bound, and their join is
this bound.  A bound depends on the types above null alone, so the join sees neither the
order of the types nor how often one is given, and nulls change nothing.
-/

namespace SchemaInference

open Schema

namespace IsJoinOf
variable {ts us : List Schema} {c d t : Schema}

theorem le_iff (h : IsJoinOf ts c) : c ≤ d ↔ ∀ t ∈ ts, t ≤ d :=
  ⟨fun hcd t ht => le_trans (h.upper t ht) hcd, h.least d⟩

/-- Collections with the same types other than null have the same join. -/
theorem eq_of_same (hc : IsJoinOf ts c) (hd : IsJoinOf us d)
    (same : ∀ t, t ≠ null → (t ∈ us ↔ t ∈ ts)) : c = d := by
  have bounds : ∀ e, (∀ t ∈ ts, t ≤ e) ↔ ∀ t ∈ us, t ≤ e := by
    intro e
    constructor
    all_goals
      intro h t ht
      by_cases heq : t = null
      · rw [heq]
        exact null_le e
    · exact h t ((same t heq).1 ht)
    · exact h t ((same t heq).2 ht)
  apply le_antisymm hc.canonical hd.canonical
  · rw [hc.le_iff, bounds]
    exact hd.upper
  · rw [hd.le_iff, ← bounds]
    exact hc.upper

end IsJoinOf

/-- Well-formed types without unions, of which any two merge. -/
structure MergeableTypes (ts : List Schema) : Prop where
  canonical : ∀ t ∈ ts, t.Canonical
  unionFree : ∀ t ∈ ts, t.UnionFree
  mergeable : ∀ s ∈ ts, ∀ t ∈ ts, Mergeable s t

namespace MergeableTypes
variable {ts us : List Schema}

theorem of_pairwise (canonical : ∀ t ∈ ts, t.Canonical) (free : ∀ t ∈ ts, t.UnionFree)
    (mergeable : ts.Pairwise Mergeable) : MergeableTypes ts := by
  have reverse : ts.Pairwise (flip Mergeable) :=
    mergeable.imp_of_mem fun hs ht h => h.symm (canonical _ hs) (canonical _ ht)
  refine ⟨canonical, free, fun s hs t ht => ?_⟩
  exact mergeable.forall_of_forall_of_flip (fun t ht => agree_refl (canonical t ht)) reverse hs ht

/-- Other orders, repetitions and nulls leave types mergeable. -/
theorem of_same (h : MergeableTypes ts) (same : ∀ t, t ≠ null → (t ∈ us ↔ t ∈ ts)) :
    MergeableTypes us := by
  have source : ∀ t ∈ us, t = null ∨ t ∈ ts := by
    intro t ht
    by_cases heq : t = null
    · exact .inl heq
    · exact .inr ((same t heq).1 ht)
  constructor
  case canonical =>
    intro t ht
    rcases source t ht with rfl | ht
    · exact canonical_primitive _
    · exact h.canonical t ht
  case unionFree =>
    intro t ht
    rcases source t ht with rfl | ht
    · exact unionFree_primitive _
    · exact h.unionFree t ht
  case mergeable =>
    intro s hs t ht
    rcases source s hs with rfl | hs
    · exact null_agree t
    rcases source t ht with rfl | ht
    · exact agree_null s
    · exact h.mergeable s hs t ht

theorem exists_join (h : MergeableTypes ts) :
    ∃ c, joinAll .strict ts = .ok c ∧ IsJoinOf ts c := by
  have joins := Strict.joins_join (branchesHeight ts)
  have low : ∀ t ∈ ts, t.height ≤ branchesHeight ts := fun t => height_le_branchesHeight
  have flat : ∀ t ∈ ts, t.isUnion = false := fun t ht => (h.unionFree t ht).self
  obtain ⟨c, joined⟩ := joins.exists_joinAllWith h.canonical low flat h.mergeable
  refine ⟨c, joined, joins.isJoinOf_joinAllWith h.canonical low flat ?_ joined⟩
  exact fun s hs t ht => (h.mergeable s hs t ht).mono False.elim

end MergeableTypes

/--
Types without unions that merge pairwise join to the least type above all of them, in any
order, however often each is given, and with or without nulls.
-/
theorem joinAll_isLeastUpperBound {ts : List Schema} (canonical : ∀ t ∈ ts, t.Canonical)
    (free : ∀ t ∈ ts, t.UnionFree) (mergeable : ts.Pairwise Mergeable) :
    ∃ c, joinAll .strict ts = .ok c ∧ c.UnionFree ∧ (∀ t ∈ ts, t ≤ c) ∧
      (∀ d, (∀ t ∈ ts, t ≤ d) → c ≤ d) ∧
      ∀ us, (∀ t, t ≠ null → (t ∈ us ↔ t ∈ ts)) → joinAll .strict us = .ok c := by
  have types := MergeableTypes.of_pairwise canonical free mergeable
  obtain ⟨c, joined, bound⟩ := types.exists_join
  refine ⟨c, joined, bound.unionFree free, bound.upper, bound.least, fun us same => ?_⟩
  obtain ⟨d, joined', bound'⟩ := (types.of_same same).exists_join
  rw [joined', bound.eq_of_same bound' same]

/-- Widths, an array and a null meet in one record, whatever else stands between them. -/
theorem joinAll_isLeastUpperBound_of_records :
    let row (fields : List (Text × Schema)) : Schema := .record "r" fields
    let a : Schema := row [("x", .primitive .int), ("y", .null)]
    let b : Schema := row [("x", .primitive .double)]
    let c : Schema := row [("x", .null), ("y", .array (some "t") (.primitive .long))]
    let bound : Schema :=
      row [("x", .primitive .double), ("y", .array (some "t") (.primitive .long))]
    ([a, .null, b, row [], c].Pairwise Mergeable) ∧
      (∀ d, (∀ t ∈ [a, .null, b, row [], c], t ≤ d) → bound ≤ d) ∧
      joinAll .strict [c, row [], c, b, a] = .ok bound := by
  intro row a b c bound
  have mergeable : [a, .null, b, row [], c].Pairwise Mergeable := by decide
  obtain ⟨d, joined, _, _, least, same⟩ :=
    joinAll_isLeastUpperBound (by decide) (by decide) mergeable
  have found : joinAll .strict [a, .null, b, row [], c] = .ok bound := by decide
  cases joined.symm.trans found
  refine ⟨mergeable, least, same _ fun t ht => ?_⟩
  simp
  grind

end SchemaInference
