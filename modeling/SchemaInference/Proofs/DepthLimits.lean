import SchemaInference.Proofs.Documents
import SchemaInference.Proofs.Grouping

/-!
# Depth limits

A higher limit of depth changes nothing but failures of depth: what is inferred under a limit,
and every other failure with its path, is what is found under all higher limits.
-/

namespace SchemaInference

variable {α β : Type}

/-- Whether an outcome is a failure of depth. -/
def FailsByDepth (x : Except (Located Failure) α) : Prop :=
  ∃ e, x = .error e ∧ e.cause.category = .depth

instance : (x : Except (Located Failure) α) → Decidable (FailsByDepth x)
  | .ok _ => .isFalse nofun
  | .error e => decidable_of_iff (e.cause.category = .depth) (by simp [FailsByDepth])

/-- Whether `y` is the outcome `x`, unless that is a failure of depth. -/
def KeptUnlessTooDeep (x y : Except (Located Failure) α) : Prop := FailsByDepth x ∨ y = x

namespace KeptUnlessTooDeep
variable {x y : Except (Located Failure) α} {f g : α → Except (Located Failure) β}

theorem refl (x : Except (Located Failure) α) : KeptUnlessTooDeep x x := .inr rfl

theorem eq (h : KeptUnlessTooDeep x y) (shallow : ¬FailsByDepth x) : y = x :=
  h.resolve_left shallow

theorem bind (h : KeptUnlessTooDeep x y) (next : ∀ a, KeptUnlessTooDeep (f a) (g a)) :
    KeptUnlessTooDeep (x >>= f) (y >>= g) := by
  rcases h with ⟨e, rfl, deep⟩ | rfl
  · exact .inl ⟨e, rfl, deep⟩
  · cases y with
    | error e => exact .inr rfl
    | ok a => exact next a

end KeptUnlessTooDeep

section Limits
variable {mode : Mode} {m m' : Int}

theorem require_higher (le : m ≤ m') (depth : Int) (path : Text) :
    KeptUnlessTooDeep (require (depth ≤ m) (.tooDeep m) path)
      (require (depth ≤ m') (.tooDeep m') path) := by
  by_cases shallow : depth ≤ m
  · have shallow' : depth ≤ m' := by omega
    rw [decide_eq_true shallow, decide_eq_true shallow']
    exact .inr rfl
  · rw [decide_eq_false shallow]
    exact .inl ⟨_, rfl, rfl⟩

mutual

/-- Under a higher limit inference fails or succeeds as before, unless it failed by depth. -/
theorem infer_higher (le : m ≤ m') {name path : Text} {depth : Int} : ∀ v : Json,
    KeptUnlessTooDeep (infer ⟨mode, m⟩ name path depth v) (infer ⟨mode, m'⟩ name path depth v)
  | .scalar s => by
      rw [infer, infer]
      exact (require_higher le depth path).bind fun _ => .refl _
  | .object members => by
      rw [infer, infer]
      refine (require_higher le depth path).bind fun _ => ?_
      refine (KeptUnlessTooDeep.refl _).bind fun _ => ?_
      exact (inferMembers_higher le members).bind fun _ => .refl _
  | .array elements => by
      rw [infer, infer]
      refine (require_higher le depth path).bind fun _ => ?_
      exact (inferElements_higher le elements).bind fun _ => .refl _

theorem inferMembers_higher (le : m ≤ m') {path : Text} {depth : Int} :
    ∀ members : List (Text × Json),
    KeptUnlessTooDeep (inferMembers ⟨mode, m⟩ path depth members)
      (inferMembers ⟨mode, m'⟩ path depth members)
  | [] => .refl _
  | (key, v) :: rest => by
      rw [inferMembers, inferMembers]
      refine (KeptUnlessTooDeep.refl _).bind fun _ => ?_
      refine (infer_higher le v).bind fun _ => ?_
      exact (inferMembers_higher le rest).bind fun _ => .refl _

theorem inferElements_higher (le : m ≤ m') {name path : Text} {depth : Int} {index : Nat} :
    ∀ elements : List Json,
    KeptUnlessTooDeep (inferElements ⟨mode, m⟩ name path depth index elements)
      (inferElements ⟨mode, m'⟩ name path depth index elements)
  | [] => .refl _
  | v :: rest => by
      rw [inferElements, inferElements]
      refine (infer_higher le v).bind fun _ => ?_
      exact (inferElements_higher le rest).bind fun _ => .refl _

end

/-- The limit matters to the value of a message, not to the reading of its text. -/
theorem inferMessage_higher (le : m ≤ m') (name : Text) (index : Int) (message : Message) :
    KeptUnlessTooDeep (inferMessage ⟨mode, m⟩ name index message).outcome
      (inferMessage ⟨mode, m'⟩ name index message).outcome :=
  (KeptUnlessTooDeep.refl _).bind fun v => infer_higher le v

theorem inferMessages_higher (le : m ≤ m') {name : Text} {index : Int} {messages : List Message}
    (shallow : ∀ r ∈ inferMessages ⟨mode, m⟩ name index messages, ¬FailsByDepth r.outcome) :
    inferMessages ⟨mode, m'⟩ name index messages = inferMessages ⟨mode, m⟩ name index messages := by
  induction messages generalizing index with
  | nil => rfl
  | cons message rest ih =>
    obtain ⟨first, others⟩ := List.forall_mem_cons.1 shallow
    have same := (inferMessage_higher le name index message).eq first
    rw [inferMessages, inferMessages, ih others]
    exact congrArg (MessageOutcome.mk index · :: _) same

end Limits

/--
A higher limit of depth removes failures of depth and changes nothing else: documents that do
not fail by depth have the outcome that they had, and batches of such documents the entries.
-/
theorem infer_eq_of_higher_limit {mode : Mode} {m m' : Int} (le : m ≤ m') :
    (∀ name path depth v, ¬FailsByDepth (infer ⟨mode, m⟩ name path depth v) →
      infer ⟨mode, m'⟩ name path depth v = infer ⟨mode, m⟩ name path depth v) ∧
    ∀ name limit messages,
      (∀ r ∈ inferMessages ⟨mode, m⟩ name 0 messages, ¬FailsByDepth r.outcome) →
      inferBatch ⟨mode, m'⟩ name limit messages = inferBatch ⟨mode, m⟩ name limit messages := by
  constructor
  · intro name path depth v shallow
    exact (infer_higher le v).eq shallow
  · intro name limit messages shallow
    unfold inferBatch
    rw [inferMessages_higher le shallow]

/-- An integer out of range at the limit of depth, alone and in a batch of two messages. -/
theorem infer_eq_of_higher_limit_of_range :
    let v : Json := .object [("a", .integer 9223372036854775808)]
    let failed : Located Failure := ⟨.outOfRange 9223372036854775808, some "r.a"⟩
    let messages : List Message := [.value v, .value (.array [.integer 1])]
    infer ⟨.strict, 1⟩ "r" "r" 0 v = .error failed ∧
      infer ⟨.strict, 5⟩ "r" "r" 0 v = .error failed ∧
      inferBatch ⟨.strict, 5⟩ "r" none messages =
        .ok [⟨.array none (.primitive .int), some [1]⟩] := by
  intro v failed messages
  obtain ⟨single, batch⟩ := @infer_eq_of_higher_limit .strict 1 5 (by decide)
  have first : infer ⟨.strict, 1⟩ "r" "r" 0 v = .error failed := rfl
  have entries : inferBatch ⟨.strict, 1⟩ "r" none messages =
      .ok [⟨.array none (.primitive .int), some [1]⟩] := by
    have exact : exactGroups [⟨1, .array none (.primitive .int)⟩] =
        [⟨.array none (.primitive .int), [1]⟩] := rfl
    have grouped : groupOutcomes .strict (inferMessages ⟨.strict, 1⟩ "r" 0 messages) =
        [⟨.array none (.primitive .int), [1]⟩] :=
      groupMatches_eq .strict (.refl _) (List.pairwise_singleton _ _) exact
    rw [inferBatch, grouped, ranking, List.mergeSort_singleton]
    rfl
  refine ⟨first, (single _ _ _ _ ?_).trans first, (batch _ _ messages ?_).trans entries⟩
  · rw [first]
    decide
  · decide

end SchemaInference
