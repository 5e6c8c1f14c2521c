import SchemaInference.Proofs.Documents

/-!
# Where failures arise

A failure of inference points at the value that caused it.  Its path is the path of the root
and the steps that lead to a value which fails alone in the same way, and whatever is written
before that value, or before a value that holds it, has a type.
-/

namespace SchemaInference

namespace Json

/-- A step from a value to one of its parts. -/
inductive Step where
  | member (key : Text)
  | element (index : Nat)

/-- The parts of a value and the steps to them, in the order in which they are written. -/
def parts : Json → List (Step × Json)
  | .scalar _ => []
  | .object members => members.map fun m => (.member m.1, m.2)
  | .array elements => elements.zipIdx.map fun entry => (.element entry.2, entry.1)

/-- The name of records at a part of a value: its key, or else the name at the value. -/
def Step.name (name : Text) : Step → Text
  | .member key => key
  | .element _ => name

/-- The path of a part of the value at `path`. -/
def Step.path (path : Text) : Step → Text
  | .member key => memberPath path key
  | .element index => elementPath path index

/-- The name of records at a position below a value: the nearest key, or else the name there. -/
def nameAt (name : Text) (position : List Step) : Text := position.foldl Step.name name

/-- The path of a position below the value at `path`. -/
def pathAt (path : Text) (position : List Step) : Text := position.foldl Step.path path

end Json

open Json

/-- What is inferred of a part of the value at `path` and `depth`. -/
def inferPart (settings : Settings) (name path : Text) (depth : Int) (part : Step × Json) :
    Except (Located Failure) Schema :=
  infer settings (part.1.name name) (part.1.path path) (depth + 1) part.2

/--
Whether `position` leads from a value to the value `w` in it, everything having a type that is
written before it in a value on the way.
-/
inductive LeadsTo (settings : Settings) : (name path : Text) → (depth : Int) → Json →
    (position : List Step) → (w : Json) → Prop where
  | here (name path : Text) (depth : Int) (v : Json) : LeadsTo settings name path depth v [] v
  | part {name path : Text} {depth : Int} {v w : Json} {step : Step} {u : Json}
    {before after : List (Step × Json)} {position : List Step}
    (split : v.parts = before ++ (step, u) :: after)
    (typed : ∀ p ∈ before, ∃ t, inferPart settings name path depth p = .ok t)
    (below : LeadsTo settings (step.name name) (step.path path) (depth + 1) u position w) :
    LeadsTo settings name path depth v (step :: position) w

/-- Whether `e` is the failure of the first of some parts of which no type is inferred. -/
def FailsFirst (settings : Settings) (name path : Text) (depth : Int) (e : Located Failure)
    (parts : List (Step × Json)) : Prop :=
  ∃ before step u after, parts = before ++ (step, u) :: after ∧
    (∀ p ∈ before, ∃ t, inferPart settings name path depth p = .ok t) ∧
    inferPart settings name path depth (step, u) = .error e

section Paths
variable {α β : Type} {e : Located Failure} {path : Text}

theorem Json.Step.path_ne_nil (step : Step) (path : Text) : step.path path ≠ [] := by
  cases step with
  | member key => simp [Step.path, memberPath, Text.ofString]
  | element index => simp [Step.path, elementPath, Text.ofString]

theorem path_of_locate {x : Except Failure α} (h : locate path x = .error e) :
    e.path = some path := by
  cases x with
  | ok a => cases h
  | error failure =>
    cases h
    rfl

/-- What fails behind a requirement fails by it, at its path, or by what comes next. -/
theorem path_or_error_of_require {condition : Bool} {failure : Failure}
    {next : Unit → Except (Located Failure) α}
    (failed : (require condition failure path >>= next) = .error e) :
    e.path = some path ∨ next () = .error e := by
  cases condition with
  | false =>
    cases failed
    exact .inl rfl
  | true => exact .inr failed

theorem error_of_bind_pure {x : Except (Located Failure) α} {f : α → β}
    (failed : (x >>= fun a => pure (f a)) = .error e) : x = .error e := by
  cases x with
  | ok a => cases failed
  | error d =>
    cases failed
    rfl

theorem pathAt_ne_nil {position : List Step} (given : path ≠ [] ∨ position ≠ []) :
    pathAt path position ≠ [] := by
  induction position generalizing path with
  | nil => exact given.resolve_right (absurd rfl)
  | cons step position ih => exact ih (.inl (step.path_ne_nil path))

/-- The path of a position is as good as a root path as it is as the path of a part. -/
theorem rootPath_pathAt (name : Text) (path : Option Text) (position : List Step) :
    rootPath (nameAt name position) (some (pathAt (rootPath name path) position)) =
      pathAt (rootPath name path) position := by
  have self (name path : Text) (full : path ≠ []) : rootPath name (some path) = path := by
    cases path with
    | nil => exact absurd rfl full
    | cons p path => rfl
  by_cases root : position = []
  · subst root
    change rootPath name (some (rootPath name path)) = rootPath name path
    match path with
    | none | some [] => cases name <;> rfl
    | some (_ :: _) => rfl
  · exact self _ _ (pathAt_ne_nil (.inr root))

end Paths

section Steps
variable {settings : Settings} {name path : Text} {depth : Int} {e : Located Failure}
  {p : Step × Json} {rest : List (Step × Json)}

theorem FailsFirst.head (failed : inferPart settings name path depth p = .error e) :
    FailsFirst settings name path depth e (p :: rest) :=
  ⟨[], p.1, p.2, rest, rfl, nofun, failed⟩

theorem FailsFirst.tail {t : Schema} (typed : inferPart settings name path depth p = .ok t)
    (h : FailsFirst settings name path depth e rest) :
    FailsFirst settings name path depth e (p :: rest) := by
  obtain ⟨before, step, u, after, rfl, earlier, failed⟩ := h
  exact ⟨p :: before, step, u, after, rfl, List.forall_mem_cons.2 ⟨⟨t, typed⟩, earlier⟩, failed⟩

theorem inferMembers_eq_error {members : List (Text × Json)}
    (failed : inferMembers settings path depth members = .error e) :
    e.path = some path ∨ FailsFirst settings name path depth e (Json.object members).parts := by
  induction members with
  | nil => cases failed
  | cons m rest ih =>
    obtain ⟨key, v⟩ := m
    rw [inferMembers] at failed
    rcases path_or_error_of_require failed with here | failed
    · exact .inl here
    rcases bind_eq_error.1 failed with first | ⟨t, typed, failed⟩
    · exact .inr (.head first)
    · exact (ih (error_of_bind_pure failed)).imp_right (.tail typed)

theorem inferElements_eq_error {elements : List Json} {index : Nat}
    (failed : inferElements settings name path depth index elements = .error e) :
    FailsFirst settings name path depth e
      ((elements.zipIdx index).map fun entry => (.element entry.2, entry.1)) := by
  induction elements generalizing index with
  | nil => cases failed
  | cons v rest ih =>
    rw [inferElements, bind_eq_error] at failed
    rcases failed with first | ⟨t, typed, failed⟩
    · exact .head first
    · exact .tail typed (ih (error_of_bind_pure failed))

/-- A failure is either that of the value itself, at its path, or that of its first part to fail. -/
theorem infer_eq_error {v : Json} (failed : infer settings name path depth v = .error e) :
    e.path = some path ∨ FailsFirst settings name path depth e v.parts := by
  cases v with
  | scalar s =>
    rw [infer] at failed
    rcases path_or_error_of_require failed with here | failed
    · exact .inl here
    · exact .inl (path_of_locate (error_of_bind_pure failed))
  | object members =>
    rw [infer] at failed
    rcases path_or_error_of_require failed with here | failed
    · exact .inl here
    rcases path_or_error_of_require failed with here | failed
    · exact .inl here
    · exact inferMembers_eq_error (error_of_bind_pure failed)
  | array elements =>
    rw [infer] at failed
    rcases path_or_error_of_require failed with here | failed
    · exact .inl here
    rcases bind_eq_error.1 failed with below | ⟨types, _, failed⟩
    · exact .inr (inferElements_eq_error below)
    · exact .inl (path_of_locate (error_of_bind_pure failed))

end Steps

theorem Json.sizeOf_lt_of_mem_parts {v u : Json} {step : Step} (h : (step, u) ∈ v.parts) :
    sizeOf u < sizeOf v := by
  cases v with
  | scalar s => cases h
  | object members =>
    obtain ⟨m, hm, heq⟩ := List.mem_map.1 h
    cases heq
    have := List.sizeOf_lt_of_mem hm
    obtain ⟨key, v⟩ := m
    simp only [Prod.mk.sizeOf_spec, object.sizeOf_spec] at this ⊢
    omega
  | array elements =>
    obtain ⟨⟨v, i⟩, hm, heq⟩ := List.mem_map.1 h
    cases heq
    have : sizeOf v < sizeOf elements := List.sizeOf_lt_of_mem (List.fst_mem_of_mem_zipIdx hm)
    simp only [array.sizeOf_spec]
    omega

/-- A failure is that of a value which inference comes to, and has the path of that value. -/
theorem exists_leadsTo {settings : Settings} {name path : Text} {depth : Int} {v : Json}
    {e : Located Failure} (failed : infer settings name path depth v = .error e) :
    ∃ position w, LeadsTo settings name path depth v position w ∧
      e.path = some (pathAt path position) ∧
      infer settings (nameAt name position) (pathAt path position) (depth + position.length) w =
        .error e := by
  rcases infer_eq_error failed with here | below
  · refine ⟨[], v, .here name path depth v, here, ?_⟩
    simpa [nameAt, pathAt] using failed
  obtain ⟨before, step, u, after, split, typed, failed⟩ := below
  have mem : (step, u) ∈ v.parts := by simp [split]
  have smaller := sizeOf_lt_of_mem_parts mem
  obtain ⟨position, w, leads, located, alone⟩ := exists_leadsTo failed
  refine ⟨step :: position, w, .part split typed leads, located, ?_⟩
  rw [List.length_cons, Int.natCast_succ, ← Int.add_assoc, Int.add_right_comm]
  exact alone
termination_by sizeOf v

/--
A failure points at the value that caused it: its path leads from the root to a value that
fails alone with the same failure, and before which everything has a type.
-/
theorem infer_fails_at {settings : Settings} {name : Text} {path : Option Text} {depth : Int}
    {v : Json} {e : Located Failure}
    (failed : infer settings name (rootPath name path) depth v = .error e) :
    ∃ position w, LeadsTo settings name (rootPath name path) depth v position w ∧
      e.path = some (pathAt (rootPath name path) position) ∧
      infer settings (nameAt name position) (rootPath (nameAt name position) e.path)
        (depth + position.length) w = .error e := by
  obtain ⟨position, w, leads, located, alone⟩ := exists_leadsTo failed
  refine ⟨position, w, leads, located, ?_⟩
  rw [located, rootPath_pathAt]
  exact alone

/-- Elements that disagree, in an object behind a number. -/
theorem infer_fails_at_of_disagreement :
    let v : Json := .object
      [("a", .array [.integer 1, .object [("b", .array [.integer 2, .string "x"])]])]
    let e : Located Failure :=
      ⟨.disagreement (.incompatible (.primitive .int) (.primitive .string)), some "r.a[1].b"⟩
    infer {} "r" "r" 0 v = .error e ∧
      ∃ position w, LeadsTo {} "r" "r" 0 v position w ∧ e.path = some (pathAt "r" position) ∧
        infer {} (nameAt "r" position) (rootPath (nameAt "r" position) e.path)
          (0 + position.length) w = .error e := by
  intro v e
  have failed : infer {} "r" (rootPath "r" none) 0 v = .error e := by cbv
  exact ⟨failed, infer_fails_at failed⟩

end SchemaInference
