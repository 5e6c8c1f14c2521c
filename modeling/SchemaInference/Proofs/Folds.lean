import Mathlib.Data.List.Forall2
import SchemaInference.Disagreement

/-!
# Outcomes and folds that may fail

What every step of a fold keeps holds of its result, as a statement about the elements
that were folded so far.
-/

namespace SchemaInference

variable {ε α β : Type}

section Outcomes
variable {x : Except ε α} {a : α}

instance decidableForallOk {q : α → Prop} [DecidablePred q] :
    (x : Except ε α) → Decidable (∀ a, x = .ok a → q a)
  | .ok a => decidable_of_iff (q a) (by simp)
  | .error _ => .isTrue (by simp)

instance decidableEqOk [DecidableEq α] (a : α) : (x : Except ε α) → Decidable (x = .ok a)
  | .ok b => decidable_of_iff (b = a) (by simp)
  | .error _ => .isFalse (by simp)

theorem bind_eq_ok {f : α → Except ε β} {b : β} :
    (x >>= f) = .ok b ↔ ∃ a, x = .ok a ∧ f a = .ok b := by
  cases x <;> simp [bind, Except.bind]

theorem bind_eq_error {f : α → Except ε β} {e : ε} :
    (x >>= f) = .error e ↔ x = .error e ∨ ∃ a, x = .ok a ∧ f a = .error e := by
  cases x <;> simp [bind, Except.bind]

theorem map_eq_ok {f : α → β} {b : β} : x.map f = .ok b ↔ ∃ a, x = .ok a ∧ f a = b := by
  cases x <;> simp [Except.map]

theorem mapError_eq_ok {δ : Type} {f : ε → δ} : x.mapError f = .ok a ↔ x = .ok a := by
  cases x <;> simp [Except.mapError]

theorem mapError_eq_error {δ : Type} {f : ε → δ} {d : δ} :
    x.mapError f = .error d ↔ ∃ e, x = .error e ∧ f e = d := by
  cases x <;> simp [Except.mapError]

theorem mapM_eq_ok {f : α → Except ε β} {xs : List α} {ys : List β} :
    xs.mapM f = .ok ys ↔ List.Forall₂ (fun x y => f x = .ok y) xs ys := by
  induction xs generalizing ys with
  | nil => simp [pure, Except.pure, eq_comm]
  | cons x xs ih =>
    rw [List.mapM_cons, List.forall₂_cons_left_iff]
    simp only [bind_eq_ok, ih, pure, Except.pure, Except.ok.injEq]
    constructor
    · rintro ⟨y, first, ys, others, rfl⟩
      exact ⟨y, ys, first, others, rfl⟩
    · rintro ⟨y, ys, first, others, rfl⟩
      exact ⟨y, first, ys, others, rfl⟩

theorem exists_error_of_mapM {f : α → Except ε β} {xs : List α} {e : ε}
    (h : xs.mapM f = .error e) : ∃ x ∈ xs, f x = .error e := by
  induction xs with
  | nil => cases h
  | cons x xs ih =>
    rw [List.mapM_cons] at h
    rcases bind_eq_error.1 h with here | ⟨y, -, rest⟩
    · exact ⟨x, List.mem_cons_self, here⟩
    · rcases bind_eq_error.1 rest with there | ⟨ys, -, done⟩
      · obtain ⟨z, hz, failed⟩ := ih there
        exact ⟨z, List.mem_cons_of_mem x hz, failed⟩
      · cases done

end Outcomes

section Folds
variable {step : β → α → Except ε β}

theorem foldlM_cons_eq_ok {x : α} {xs : List α} {start result : β} :
    (x :: xs).foldlM step start = .ok result ↔
      ∃ next, step start x = .ok next ∧ xs.foldlM step next = .ok result := by
  rw [List.foldlM_cons, bind_eq_ok]

/-- What holds at the start and is kept by every step holds of the result. -/
theorem foldlM_invariant (inv : List α → β → Prop) {xs : List α} {start result : β}
    (h : xs.foldlM step start = .ok result) (base : inv [] start)
    (keep : ∀ seen x rest b c, seen ++ x :: rest = xs → inv seen b → step b x = .ok c →
      inv (seen ++ [x]) c) : inv xs result := by
  have go : ∀ rest seen b, seen ++ rest = xs → inv seen b →
      rest.foldlM step b = .ok result → inv xs result := by
    intro rest
    induction rest with
    | nil =>
      intro seen b whole hb h
      cases h
      rwa [← whole, List.append_nil]
    | cons x rest ih =>
      intro seen b whole hb h
      obtain ⟨c, hc, h⟩ := foldlM_cons_eq_ok.1 h
      exact ih (seen ++ [x]) c (by simpa using whole) (keep seen x rest b c whole hb hc) h
  exact go xs [] start rfl base h

/-- A fold succeeds if every step from what holds so far does. -/
theorem exists_foldlM (inv : List α → β → Prop) {xs : List α} {start : β} (base : inv [] start)
    (next : ∀ seen x rest b, seen ++ x :: rest = xs → inv seen b →
      ∃ c, step b x = .ok c ∧ inv (seen ++ [x]) c) :
    ∃ result, xs.foldlM step start = .ok result ∧ inv xs result := by
  have go : ∀ rest seen b, seen ++ rest = xs → inv seen b →
      ∃ result, rest.foldlM step b = .ok result ∧ inv xs result := by
    intro rest
    induction rest with
    | nil => exact fun seen b whole hb => ⟨b, rfl, by rwa [← whole, List.append_nil]⟩
    | cons x rest ih =>
      intro seen b whole hb
      obtain ⟨c, hc, hinv⟩ := next seen x rest b whole hb
      obtain ⟨result, found, hr⟩ := ih (seen ++ [x]) c (by simpa using whole) hinv
      exact ⟨result, foldlM_cons_eq_ok.2 ⟨c, hc, found⟩, hr⟩
  exact go xs [] start rfl base

/-- Steps that commute may be taken in any order. -/
theorem foldlM_perm {m : Type → Type} [Monad m] [LawfulMonad m] {step : β → α → m β}
    {xs ys : List α} (perm : xs.Perm ys)
    (comm : ∀ x ∈ xs, ∀ y ∈ xs, ∀ b, (step b x >>= (step · y)) = (step b y >>= (step · x)))
    (start : β) : xs.foldlM step start = ys.foldlM step start := by
  induction perm generalizing start with
  | nil => rfl
  | cons x _ ih =>
    rw [List.foldlM_cons, List.foldlM_cons]
    refine bind_congr fun b => ih (fun y hy z hz => ?_) b
    exact comm y (List.mem_cons_of_mem _ hy) z (List.mem_cons_of_mem _ hz)
  | swap x y rest =>
    simp only [List.foldlM_cons, ← bind_assoc]
    rw [comm y (by simp) x (by simp)]
  | trans first _ ih ih' =>
    refine (ih comm start).trans (ih' (fun x hx y hy => ?_) start)
    exact comm x (first.mem_iff.2 hx) y (first.mem_iff.2 hy)

end Folds

section Agreement
variable {P : α → Prop} {Q : β → Prop}

/-- Two evaluations with one outcome, which has the property `P` if it is no error. -/
inductive Agreed (P : α → Prop) : Except ε α → Except ε α → Prop where
  | ok {a : α} (h : P a) : Agreed P (.ok a) (.ok a)
  | error (e : ε) : Agreed P (.error e) (.error e)

namespace Agreed
variable {x y : Except ε α}

theorem eq (h : Agreed P x y) : x = y := by
  cases h <;> rfl

theorem of_eq_ok {a : α} (h : Agreed P x y) (found : x = .ok a) : P a := by
  cases h with
  | ok ha => cases found; exact ha
  | error e => cases found

theorem bind {f g : α → Except ε β} (h : Agreed P x y) (next : ∀ a, P a → Agreed Q (f a) (g a)) :
    Agreed Q (x >>= f) (y >>= g) := by
  cases h with
  | ok ha => exact next _ ha
  | error e => exact .error e

theorem map {f : α → β} (h : Agreed P x y) (next : ∀ a, P a → Q (f a)) :
    Agreed Q (x.map f) (y.map f) := by
  cases h with
  | ok ha => exact .ok (next _ ha)
  | error e => exact .error e

theorem imp {P' : α → Prop} (h : Agreed P x y) (weaker : ∀ a, P a → P' a) : Agreed P' x y := by
  cases h with
  | ok ha => exact .ok (weaker _ ha)
  | error e => exact .error e

theorem trans {z : Except ε α} (h : Agreed P x y) (h' : Agreed P y z) : Agreed P x z :=
  h.eq ▸ h'

theorem symm (h : Agreed P x y) : Agreed P y x := by
  cases h with
  | ok ha => exact .ok ha
  | error e => exact .error e

theorem foldlM {step step' : β → α → Except ε β} {xs : List α} {start : β} (base : Q start)
    (next : ∀ x ∈ xs, ∀ b, Q b → Agreed Q (step b x) (step' b x)) :
    Agreed Q (xs.foldlM step start) (xs.foldlM step' start) := by
  induction xs generalizing start with
  | nil => exact .ok base
  | cons x rest ih =>
    rw [List.foldlM_cons, List.foldlM_cons]
    apply (next x List.mem_cons_self start base).bind
    intro b hb
    exact ih hb fun y hy => next y (List.mem_cons_of_mem _ hy)

end Agreed

end Agreement

end SchemaInference
