import Mathlib.Data.List.Permutation
import SchemaInference.Proofs.Orderly
import SchemaInference.Proofs.Symmetry

/-!
# The order of array elements

The types of array elements do not depend on where the elements stand.  If they agree in
all parts that meet, or are two types whose join is symmetric, the elements of an array may
be reordered: the inferred schema is the same, or there is none in either order.
-/

namespace SchemaInference

open Schema

section Permutations
variable {settings : Settings}

theorem inferElements_perm {name path : Text} {depth : Int} {vs ws : List Json}
    {types : List Schema} (perm : vs.Perm ws)
    (h : inferElements settings name path depth 0 vs = .ok types) :
    ∃ types', inferElements settings name path depth 0 ws = .ok types' ∧ types'.Perm types := by
  obtain ⟨types', found, same⟩ := List.perm_comp_forall₂ perm.symm (inferElements_eq_ok.1 h)
  exact ⟨types', inferElements_eq_ok.2 found, same⟩

end Permutations

/-- Whether a schema is no union and, if it is a record, named by its place like its fields. -/
structure Schema.NamedByPlace (name : Text) (t : Schema) : Prop where
  flat : t.isUnion = false
  record : ∀ r : Record, t = r.schema → r.name = name ∧ r.FieldsNamed

theorem inferenceInvariant_namedByPlace (settings : Settings) :
    InferenceInvariant settings (fun _ _ => True) fun name _ t => t.NamedByPlace name where
  scalar name s k _ := ⟨rfl, nofun⟩
  object name members fields _ parts := by
    refine ⟨rfl, fun r heq => ?_⟩
    have heq : Record.ofFields name fields = r := by simpa using congrArg record? heq
    rw [← heq]
    refine ⟨rfl, fun f m gs found => ?_⟩
    obtain ⟨_, _, h⟩ :=
      exists_member_of_field? (S := fun name _ t => t.NamedByPlace name) parts found
    exact (h.record ⟨m, gs⟩ rfl).1
  array name elements types items _ _ _ := ⟨rfl, nofun⟩

/-- Whether two types agree in the parts that meet when they are joined. -/
def Schema.PartsAgree : Schema → Schema → Prop
  | .array _ s, .array _ t => Agree True s t
  | .record _ fs, .record _ gs => FieldsAgree True fs gs
  | _, _ => True

instance : (s t : Schema) → Decidable (PartsAgree s t)
  | .array _ s, .array _ t => inferInstanceAs (Decidable (Agree True s t))
  | .record _ fs, .record _ gs => decidableFieldsAgree fs gs
  | .primitive .., _ | .union .., _ => .isTrue trivial
  | .array .., .primitive .. | .array .., .record .. | .array .., .union .. => .isTrue trivial
  | .record .., .primitive .. | .record .., .array .. | .record .., .union .. => .isTrue trivial

theorem aligned_of_partsAgree (name : Text) {types : List Schema}
    (canonical : ∀ t ∈ types, t.Canonical) (named : ∀ t ∈ types, t.NamedByPlace name)
    (agree : ∀ s ∈ types, ∀ t ∈ types, PartsAgree s t) :
    Aligned (branchesHeight types) types := by
  have mem {r : Record} (hr : r ∈ types.filterMap record?) : r.schema ∈ types :=
    mem_filterMap_record?.1 hr
  refine ⟨canonical, fun t => height_le_branchesHeight, fun t ht => (named t ht).flat, ?_, ?_⟩
  · intro s hs t ht hps hpt
    have meets := agree s hs t ht
    cases s with
    | primitive k =>
      cases t with
      | primitive l => simp [Agree]
      | array m t => simp [Agree]
      | _ => cases hpt
    | array n s =>
      cases t with
      | primitive l => simp [Agree]
      | array m t =>
        rw [Agree]
        exact meets
      | _ => cases hpt
    | _ => cases hps
  · refine ⟨fun r hr => canonical _ (mem hr), fun r hr => height_le_branchesHeight (mem hr),
      fun r hr => ((named _ (mem hr)).record r rfl).2, fun r hr q hq => ?_⟩
    have same := ((named _ (mem hr)).record r rfl).1.trans ((named _ (mem hq)).record q rfl).1.symm
    exact ⟨same, agree _ (mem hr) _ (mem hq)⟩

/--
Whether the order of types called `name` does not matter to their join: they agree in the
parts that meet, or they are two types without unions that are named by their place, null and
repetitions apart.
-/
def OrderFree (name : Text) (types : List Schema) : Prop :=
  (∀ s ∈ types, ∀ t ∈ types, PartsAgree s t) ∨
    (∀ t ∈ types, t.PlainAt name) ∧ (Strict.candidates types).length ≤ 2

theorem OrderFree.perm {name : Text} {types types' : List Schema} (h : OrderFree name types)
    (same : types.Perm types') : OrderFree name types' := by
  refine h.imp (fun agree s hs t ht => ?_) fun ⟨plain, pair⟩ => ⟨fun t ht => ?_, ?_⟩
  · exact agree s (same.mem_iff.2 hs) t (same.mem_iff.2 ht)
  · exact plain t (same.mem_iff.2 ht)
  · rwa [← (Strict.candidates_perm same).length_eq]

/-- Two types that are named by their place may be joined in either order. -/
theorem joinAllWith_perm_of_pair {name : Text} {types types' : List Schema} {items : Schema}
    (plain : ∀ t ∈ types, t.PlainAt name) (pair : (Strict.candidates types).length ≤ 2)
    (same : types.Perm types') (joined : Strict.joinAllWith Strict.join types = .ok items) :
    Strict.joinAllWith Strict.join types' = .ok items := by
  have perm := Strict.candidates_perm same
  have distinct := Strict.nodup_candidates types
  have candidate : ∀ t ∈ Strict.candidates types, t.PlainAt name ∧ t ≠ null := by
    intro t ht
    obtain ⟨mem, full⟩ := Strict.mem_candidates.1 ht
    exact ⟨plain t mem, full⟩
  -- the join is that of the candidates, which stand in the same order or are swapped
  have of_eq (same : Strict.candidates types' = Strict.candidates types) :
      Strict.joinAllWith Strict.join types' = .ok items := by
    rwa [Strict.joinAllWith, same]
  generalize found : Strict.candidates types = cs at perm distinct candidate of_eq pair
  rcases cs with _ | ⟨a, _ | ⟨b, _ | ⟨c, rest⟩⟩⟩
  · exact of_eq perm.nil_eq.symm
  · exact of_eq (List.perm_singleton.1 perm.symm)
  · rcases List.perm_pair.1 perm.symm with same | swapped
    · exact of_eq same
    · obtain ⟨⟨ha, fulla⟩, hb, fullb⟩ := forall_mem_pair.1 candidate
      have ne : a ≠ b := by simpa using distinct
      have outcome := Strict.joinAllWith_symm ha hb ne fulla fullb
      rw [Strict.joinAllWith, Strict.joinAllWith, Strict.candidates_pair ne fulla fullb,
        Strict.candidates_pair ne.symm fullb fulla] at outcome
      rw [Strict.joinAllWith, found] at joined
      rw [Strict.joinAllWith, swapped]
      exact outcome.of_ok joined
  · simp at pair

theorem aligned_of_inferElements {settings : Settings} (strict : settings.mode = .strict)
    {name path : Text} {depth : Int} {index : Nat} {vs : List Json} {types : List Schema}
    (found : inferElements settings name path depth index vs = .ok types)
    (agree : ∀ s ∈ types, ∀ t ∈ types, PartsAgree s t) :
    Aligned (branchesHeight types) types := by
  have trivially : Json.EveryArrayOfElements (fun _ _ => True) settings name path depth index vs :=
    Json.everyArrayOfElements_of_forall (fun _ _ => trivial) vs
  refine aligned_of_partsAgree name (fun t ht => ?_) (fun t ht => ?_) agree
  · obtain ⟨v, _, h⟩ := exists_left_of_mem
      ((inferenceInvariant_orderly strict).inferElements trivially found) ht
    exact h.canonical
  · obtain ⟨v, _, h⟩ := exists_left_of_mem
      ((inferenceInvariant_namedByPlace settings).inferElements trivially found) ht
    exact h

/--
Where the types of the elements of an array agree in the parts that meet, or are two types
that are named by their place, the elements may be reordered: the array has the same schema
in both orders, or none in either.
-/
theorem infer_array_perm {settings : Settings} (strict : settings.mode = .strict)
    {name path : Text} {depth : Int} {vs ws : List Json} (perm : vs.Perm ws)
    (free : ∀ types, inferElements settings name path depth 0 vs = .ok types →
      OrderFree name types) :
    (infer settings name path depth (.array vs)).toOption =
      (infer settings name path depth (.array ws)).toOption := by
  have forward {vs ws : List Json} {types : List Schema} {t : Schema} (perm : vs.Perm ws)
      (found : inferElements settings name path depth 0 vs = .ok types)
      (free : OrderFree name types)
      (h : infer settings name path depth (.array vs) = .ok t) :
      infer settings name path depth (.array ws) = .ok t := by
    obtain ⟨shallow, types, items, again, joined, rfl⟩ := infer_array_eq_ok.1 h
    cases found.symm.trans again
    obtain ⟨types', found', same⟩ := inferElements_perm perm found
    rw [strict] at joined
    refine infer_array_eq_ok.2 ⟨shallow, types', items, found', ?_, rfl⟩
    rw [strict]
    rcases free with agree | ⟨plain, pair⟩
    · have aligned := aligned_of_inferElements strict found agree
      exact joinAllWith_congr (Strict.joins_join _) aligned (fun t => same.mem_iff.symm) joined
    · exact joinAllWith_perm_of_pair plain pair same.symm joined
  have elements {vs : List Json} {t : Schema}
      (h : infer settings name path depth (.array vs) = .ok t) :
      ∃ types, inferElements settings name path depth 0 vs = .ok types := by
    obtain ⟨_, types, _, found, _⟩ := infer_array_eq_ok.1 h
    exact ⟨types, found⟩
  cases h : infer settings name path depth (.array vs) with
  | ok t =>
    obtain ⟨types, found⟩ := elements h
    rw [forward perm found (free types found) h]
  | error failure =>
    cases h' : infer settings name path depth (.array ws) with
    | error failure' => rfl
    | ok t =>
      obtain ⟨types', found'⟩ := elements h'
      obtain ⟨types, found, same⟩ := inferElements_perm perm.symm found'
      rw [forward perm.symm found' ((free types found).perm same) h'] at h
      cases h

/--
Tagged wrappers among numbers give one union, whichever element comes first, and so do the
wrappers in a field of two records.
-/
theorem infer_array_perm_of_wrappers :
    (infer {} "r" "r" 0 (.array [.scalar .null, .scalar (.real "2.5"),
      .object [("string", .string "x")], .object [("int", .integer 1)]])).toOption =
        some (.array none (.union [.primitive .double, .primitive .string])) ∧
    (infer {} "r" "r" 0 (.array [.object [("f", .object [("string", .string "x")])],
      .object [("f", .object [("int", .integer 1)])]])).toOption =
        some (.array none (.record "r" [("f", .union [.primitive .int, .primitive .string])])) := by
  constructor
  · let vs : List Json := [.object [("int", .integer 1)], .object [("string", .string "x")],
      .scalar (.real "2.5"), .scalar .null]
    let wrapper (k : Kind) : Schema := .record "r" [(k.keyword, .primitive k)]
    have found : inferElements {} "r" "r" 0 0 vs =
        .ok [wrapper .int, wrapper .string, .primitive .double, null] := rfl
    have free (types : List Schema) (h : inferElements {} "r" "r" 0 0 vs = .ok types) :
        OrderFree "r" types := by
      cases found.symm.trans h
      exact .inl (by decide)
    refine (infer_array_perm rfl vs.reverse_perm.symm free).symm.trans ?_
    have union := unionOf_pair (.primitive .double) (.primitive .string) rfl rfl (by decide)
    exact congrArg (fun u => some (Schema.array none u)) union
  · let vs : List Json := [.object [("f", .object [("int", .integer 1)])],
      .object [("f", .object [("string", .string "x")])]]
    let row (k : Kind) : Schema := .record "r" [("f", .record "f" [(k.keyword, .primitive k)])]
    have found : inferElements {} "r" "r" 0 0 vs = .ok [row .int, row .string] := rfl
    have free (types : List Schema) (h : inferElements {} "r" "r" 0 0 vs = .ok types) :
        OrderFree "r" types := by
      cases found.symm.trans h
      have plain (k : Kind) (formed : (row k).Canonical ∧ (row k).UnionFree) :
          (row k).PlainAt "r" :=
        ⟨⟨formed.1, formed.2⟩, by simp [row, FollowsNaming, FieldsFollowNaming]⟩
      exact .inr ⟨forall_mem_pair.2 ⟨plain .int (by decide), plain .string (by decide)⟩, by decide⟩
    refine (infer_array_perm rfl vs.reverse_perm.symm free).symm.trans ?_
    have union := unionOf_pair (.primitive .int) (.primitive .string) rfl rfl (by decide)
    exact congrArg (fun u => some (Schema.array none (.record "r" [("f", u)]))) union

/--
Where item types are put into a union, the order of the elements matters: a branch that was
unpacked keeps the name of its tag, an empty record keeps the name of its place, and the
record that they merge into has the name of the one that comes first.
-/
theorem exists_infer_array_perm_ne : ∃ vs ws : List Json, vs.Perm ws ∧
    (infer {} "r" "r" 0 (.array vs)).toOption ≠ (infer {} "r" "r" 0 (.array ws)).toOption := by
  let tagged : Json := .array [.object [("string", .string "s")],
    .object [("y", .object [("x", .integer 1)])]]
  let vacant : Json := .array [.object []]
  let both (name : Text) : Schema := .array none
    (.union [.primitive .string, .record name [("x", .primitive .int)]])
  let empty : Schema := .array none (.record "r" [])
  refine ⟨[tagged, vacant], [vacant, tagged], .swap _ _ [], ?_⟩
  have union (name : Text) :=
    unionOf_pair (.primitive .string) (.record name [("x", .primitive .int)]) rfl rfl rfl
  have first : infer {} "r" "r" 0 (.array [tagged, vacant]) = .ok (.array none (both "y")) := by
    have found : inferElements {} "r" "r" 0 0 [tagged, vacant] = .ok [both "y", empty] :=
      congrArg (fun u => Except.ok [Schema.array none u, empty]) (union "y")
    have joined : joinAll .strict [both "y", empty] = .ok (both "y") :=
      congrArg (fun u => Except.ok (Schema.array none u)) (union "y")
    exact infer_array_eq_ok.2 ⟨by decide, _, _, found, joined, rfl⟩
  have second : infer {} "r" "r" 0 (.array [vacant, tagged]) = .ok (.array none (both "r")) := by
    have found : inferElements {} "r" "r" 0 0 [vacant, tagged] = .ok [empty, both "y"] :=
      congrArg (fun u => Except.ok [empty, Schema.array none u]) (union "y")
    have joined : joinAll .strict [empty, both "y"] = .ok (both "r") :=
      congrArg (fun u => Except.ok (Schema.array none u)) (union "r")
    exact infer_array_eq_ok.2 ⟨by decide, _, _, found, joined, rfl⟩
  rw [first, second]
  decide

end SchemaInference
