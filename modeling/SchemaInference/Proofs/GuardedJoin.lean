import SchemaInference.Join.Strict
import SchemaInference.Proofs.Folds

/-!
# Joins under a condition

`joinUnder` is the strict join that fails as soon as two types are joined in a way that
is not allowed, wherever inside the given types that happens.  Where it succeeds, the
strict join takes allowed steps only.
-/

namespace SchemaInference.Strict

variable (allowed : Schema → Schema → Schema → Bool)

/-- The join for types whose height is below a level, as far as its steps are allowed. -/
def joinUnderWithin : Nat → Join
  | 0 => fun a b => .error (.incompatible a b)
  | level + 1 => fun a b =>
    match joinWith (joinUnderWithin level) a b with
    | .ok c => if allowed a b c then .ok c else .error (.incompatible a b)
    | .error reason => .error reason

/-- The join of two types, as far as its steps are allowed. -/
def joinUnder : Join := fun a b => joinUnderWithin allowed (max a.height b.height + 1) a b

/-- Whether the types of a collection are joined by allowed steps only, if they are joined. -/
def JoinsUnder (types : List Schema) : Prop :=
  ∀ items, joinAllWith join types = .ok items → joinAllWith (joinUnder allowed) types = .ok items

instance : DecidablePred (JoinsUnder allowed) := fun types =>
  inferInstanceAs (Decidable (∀ items, joinAllWith join types = .ok items →
    joinAllWith (joinUnder allowed) types = .ok items))

variable {allowed}

theorem joinUnderWithin_succ_eq_ok {level : Nat} {a b c : Schema} :
    joinUnderWithin allowed (level + 1) a b = .ok c ↔
      joinWith (joinUnderWithin allowed level) a b = .ok c ∧ allowed a b c = true := by
  simp only [joinUnderWithin]
  cases joinWith (joinUnderWithin allowed level) a b with
  | error reason => simp
  | ok d =>
    by_cases h : allowed a b d = true
    · simp only [h, if_true, Except.ok.injEq]
      exact ⟨fun heq => ⟨heq, heq ▸ h⟩, And.left⟩
    · simp only [h, if_false, reduceCtorEq, Except.ok.injEq, false_iff, not_and]
      exact fun heq => heq ▸ h

theorem joinsUnder_of_eq_ok {types : List Schema} (items : Schema)
    (h : joinAllWith join types = .ok items)
    (under : joinAllWith (joinUnder allowed) types = .ok items) : JoinsUnder allowed types := by
  intro c hc
  cases h.symm.trans hc
  exact under

end SchemaInference.Strict
