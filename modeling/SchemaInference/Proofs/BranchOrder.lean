import Mathlib.Data.List.Nodup
import SchemaInference.Proofs.Everywhere
import SchemaInference.Schema.Branch

/-!
# The order of branches

Labels are linearly ordered, so a union whose branches have distinct labels is
determined by the set of its branches.
-/

namespace SchemaInference

namespace BranchLabel
variable {a b c : BranchLabel}

theorem le_iff : a.le b = true ↔ a.group < b.group ∨ a.group = b.group ∧ a.name ≤ b.name := by
  simp [le]

theorem le_trans (hab : a.le b = true) (hbc : b.le c = true) : a.le c = true := by
  rw [le_iff] at hab hbc ⊢
  rcases hab with hab | ⟨gab, nab⟩
  · rcases hbc with hbc | ⟨gbc, _⟩ <;> exact .inl (by omega)
  · rcases hbc with hbc | ⟨gbc, nbc⟩
    · exact .inl (by omega)
    · exact .inr ⟨by omega, Std.le_trans nab nbc⟩

theorem le_total (a b : BranchLabel) : (a.le b || b.le a) = true := by
  rw [Bool.or_eq_true, le_iff, le_iff]
  rcases Nat.lt_trichotomy a.group b.group with hlt | heq | hgt
  · exact .inl (.inl hlt)
  · rcases Std.le_total (a := a.name) (b := b.name) with h | h
    · exact .inl (.inr ⟨heq, h⟩)
    · exact .inr (.inr ⟨heq.symm, h⟩)
  · exact .inr (.inl hgt)

theorem le_antisymm (hab : a.le b = true) (hba : b.le a = true) : a = b := by
  rw [le_iff] at hab hba
  have groups : a.group = b.group := by omega
  have names : a.name = b.name :=
    Std.le_antisymm (hab.resolve_left (by omega)).2 (hba.resolve_left (by omega)).2
  cases a <;> cases b <;> simp_all [group, name]
  exact Kind.keyword_injective names

end BranchLabel

namespace Schema

theorem eq_primitive_or_slot_eq (s : Schema) :
    (∃ k, s = .primitive k) ∨ s.slot = .of s.branchLabel ∧ ∀ k, s.branchLabel ≠ .primitive k := by
  cases s with
  | primitive k => exact .inl ⟨k, rfl⟩
  | array name items => cases name <;> exact .inr ⟨rfl, nofun⟩
  | _ => exact .inr ⟨rfl, nofun⟩

theorem slot_eq_of_branchLabel_eq {a b : Schema} (h : a.branchLabel = b.branchLabel) :
    a.slot = b.slot := by
  rcases eq_primitive_or_slot_eq a with ⟨k, rfl⟩ | ⟨ha, keyed⟩
  · rcases eq_primitive_or_slot_eq b with ⟨l, rfl⟩ | ⟨_, keyed⟩
    · cases h; rfl
    · exact absurd h.symm (keyed k)
  · rcases eq_primitive_or_slot_eq b with ⟨l, rfl⟩ | ⟨hb, _⟩
    · exact absurd h (keyed l)
    · rw [ha, hb, h]

variable {members : List Schema}

/-- Whether branches stand in ascending order of their labels. -/
def BranchesAscend (branches : List Schema) : Prop :=
  branches.Pairwise fun a b => a.branchLabel.le b.branchLabel = true

instance (branches : List Schema) : Decidable (BranchesAscend branches) :=
  inferInstanceAs (Decidable (branches.Pairwise _))

theorem flatMap_branches_of_flat (flat : ∀ m ∈ members, m.isUnion = false) :
    members.flatMap branches = members := by
  induction members with
  | nil => rfl
  | cons m rest ih =>
    obtain ⟨hm, hrest⟩ := List.forall_mem_cons.1 flat
    have single : m.branches = [m] := by
      cases m with
      | union bs => cases hm
      | _ => rfl
    rw [List.flatMap_cons, single, ih hrest]
    rfl

/-- A union of members that are no unions has these as its branches, in ascending order. -/
theorem unionOf_of_flat (flat : ∀ m ∈ members, m.isUnion = false) :
    ∃ bs, unionOf members = .union bs ∧ bs.Perm members ∧ BranchesAscend bs := by
  refine ⟨members.mergeSort fun a b => a.branchLabel.le b.branchLabel, ?_,
    List.mergeSort_perm _ _, ?_⟩
  · rw [unionOf, flatMap_branches_of_flat flat]
  · exact @List.pairwise_mergeSort _ (fun a b => a.branchLabel.le b.branchLabel)
      (fun _ _ _ => BranchLabel.le_trans) (fun _ _ => BranchLabel.le_total _ _) members

theorem unionOf_pair (a b : Schema) (ha : a.isUnion = false) (hb : b.isUnion = false)
    (ascend : a.branchLabel.le b.branchLabel = true) : unionOf [a, b] = .union [a, b] := by
  have sorted : BranchesAscend [a, b] := List.pairwise_pair.2 ascend
  rw [unionOf, flatMap_branches_of_flat (by simp [ha, hb]), List.mergeSort_of_pairwise sorted]

/-- The union of branches with distinct labels has them in the one ascending order. -/
theorem unionOf_eq {bs : List Schema} (perm : members.Perm bs)
    (flat : ∀ m ∈ members, m.isUnion = false) (distinct : (members.map branchLabel).Nodup)
    (ascend : BranchesAscend bs) : unionOf members = .union bs := by
  obtain ⟨cs, heq, perm', ascend'⟩ := unionOf_of_flat flat
  rw [heq, (perm'.trans perm).eq_of_pairwise (fun a b ha hb hab hba => ?_) ascend' ascend]
  have ha := perm'.mem_iff.1 ha
  have hb := perm.mem_iff.2 hb
  exact List.inj_on_of_nodup_map distinct ha hb (BranchLabel.le_antisymm hab hba)

/-- The order in which members with distinct labels are given does not matter. -/
theorem unionOf_perm {others : List Schema} (perm : members.Perm others)
    (flat : ∀ m ∈ members, m.isUnion = false)
    (distinct : (members.map branchLabel).Nodup) : unionOf members = unionOf others := by
  obtain ⟨bs, heq, perm', ascend⟩ := unionOf_of_flat fun m hm => flat m (perm.mem_iff.2 hm)
  rw [heq]
  exact unionOf_eq (perm.trans perm'.symm) flat distinct ascend

end Schema

end SchemaInference
