import SchemaInference.Join.Strict
import SchemaInference.Proofs.Folds

/-!
# Joins by cases

What a join that succeeded has done, so that what is to be proved of it is proved for each
of its cases.  A join of plain types has widened two primitives to one kind or joined the
items of two arrays.  A strict join has found one type, or null and a type, or else has
joined its types as members of a collection or as plain types.
-/

namespace SchemaInference

namespace Kind
variable {k l m : Kind}

theorem join?_comm (k l : Kind) : k.join? .strict l = l.join? .strict k := by
  cases k <;> cases l <;> decide

theorem join?_right_comm (k l m : Kind) :
    ((m.join? .strict k).bind fun n => n.join? .strict l) =
      (m.join? .strict l).bind fun n => n.join? .strict k := by
  cases k <;> cases l <;> cases m <;> decide

theorem exists_join? (h : k = l ∨ (k.isNumeric = true ∧ l.isNumeric = true)) :
    ∃ m, k.join? .strict l = some m := by
  by_cases heq : k = l
  · exact ⟨k, by simp [join?, heq]⟩
  · obtain ⟨hk, hl⟩ := h.resolve_left heq
    exact ⟨k.widest l, by simp [join?, heq, hk, hl]⟩

section Joined
variable (h : k.join? .strict l = some m)
include h

theorem join?_eq_left_or_right : m = k ∨ m = l := by
  revert h
  cases k <;> cases l <;> cases m <;> decide

theorem fits_of_join? : k.fits m = true ∧ l.fits m = true := by
  revert h
  cases k <;> cases l <;> cases m <;> decide

theorem isNumeric_of_join? : m.isNumeric = l.isNumeric ∧ (m = k ∧ m = l ∨ m.isNumeric = true) := by
  revert h
  cases k <;> cases l <;> cases m <;> decide

theorem eq_null_of_join? : (k = .null → m = .null) ∧ (l = .null → m = .null) := by
  revert h
  cases k <;> cases l <;> cases m <;> decide

end Joined

end Kind

variable {mode : Mode} {j : Join} {a b c : Schema}

/-- How the join of two plain types comes about. -/
inductive JoinedPlain (mode : Mode) (j : Join) : Schema → Schema → Schema → Prop where
  | primitives {k l m : Kind} (kinds : k.join? mode l = some m) :
    JoinedPlain mode j (.primitive k) (.primitive l) (.primitive m)
  | arrays {s t u : Schema} (n m : Option Text) (items : j s t = .ok u) :
    JoinedPlain mode j (.array n s) (.array m t) (.array (if n = m then n else none) u)

theorem joinPlain_eq_ok : joinPlain mode j a b = .ok c ↔ JoinedPlain mode j a b c := by
  constructor
  · intro h
    cases a <;> cases b <;> simp only [joinPlain] at h
    case primitive.primitive k l =>
      split at h
      · next m kinds =>
        cases h
        exact .primitives kinds
      · cases h
    case array.array n s m t =>
      obtain ⟨u, items, rfl⟩ := map_eq_ok.1 h
      exact .arrays n m items
    all_goals cases h
  · intro h
    cases h with
    | primitives kinds => simp only [joinPlain, kinds]
    | arrays n m items => exact map_eq_ok.2 ⟨_, items, rfl⟩

theorem isCompound_of_joinPlain (h : joinPlain mode j a b = .ok c) :
    a.isCompound = false ∧ b.isCompound = false ∧ c.isCompound = false := by
  cases joinPlain_eq_ok.1 h <;> exact ⟨rfl, rfl, rfl⟩

theorem slot_joinPlain (h : joinPlain .strict j a b = .ok c) (same : a.slot = b.slot) :
    c.slot = b.slot := by
  cases joinPlain_eq_ok.1 h with
  | primitives kinds =>
    obtain ⟨numeric, ⟨_, rfl⟩ | wide⟩ := Kind.isNumeric_of_join? kinds
    · rfl
    · simp [Schema.slot, wide, numeric ▸ wide]
  | arrays n m items => cases n <;> cases m <;> simp_all [Schema.slot, Schema.branchLabel]

/-- How the strict join of two types comes about. -/
inductive Strict.Joined (j : Join) : Schema → Schema → Schema → Prop where
  | same {a : Schema} : Joined j a a a
  | nullLeft {b : Schema} : Joined j .null b b
  | nullRight {a : Schema} : Joined j a .null a
  | collection {a b c : Schema} (ne : a ≠ b) (fulla : a ≠ .null) (fullb : b ≠ .null)
    (joined : Strict.joinAllWith j [a, b] = .ok c) : Joined j a b c
  | plain {a b c : Schema} (joined : joinPlain .strict j a b = .ok c) : Joined j a b c

theorem Strict.joined_of_joinWith (h : Strict.joinWith j a b = .ok c) : Strict.Joined j a b c := by
  simp only [Strict.joinWith] at h
  split at h
  · next eq =>
    cases h
    exact eq ▸ .same
  split at h
  · next eq =>
    cases h
    exact eq ▸ .nullLeft
  split at h
  · next eq =>
    cases h
    exact eq ▸ .nullRight
  split at h
  · next ne fulla fullb _ => exact .collection ne fulla fullb h
  · exact .plain h

end SchemaInference
