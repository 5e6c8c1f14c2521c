import SchemaInference.Json.Reader
import SchemaInference.Proofs.Lexing

/-!
# Reading back what was printed

A reading that takes the tokens of a value completes that value and leaves the containers
around it as they were, provided that there is room for the containers inside it.  Both
texts of a schema therefore give back its structure, and tell it from every other schema.
-/

namespace SchemaInference

namespace Json

mutual

/-- How many containers of a value may be open at once. -/
def nesting : Json → Nat
  | .scalar _ => 0
  | .array xs => nestingOfElements xs + 1
  | .object ms => nestingOfMembers ms + 1

def nestingOfElements : List Json → Nat
  | [] => 0
  | x :: xs => max (nesting x) (nestingOfElements xs)

def nestingOfMembers : List (Text × Json) → Nat
  | [] => 0
  | (_, x) :: ms => max (nesting x) (nestingOfMembers ms)

end

/-- The tokens of a value complete it wherever there is room for its containers. -/
def Completes (x : Json) : Prop :=
  ∀ frames rest, frames.length + x.nesting ≤ Reading.nestingLimit →
    Reading.run ⟨frames, .value⟩ (x.written ++ rest) = Reading.run ⟨frames, .complete x⟩ rest

namespace Reading

variable {frames : List Frame} {rest : List Token} {x : Json}

theorem run_cons {r next : Reading} {token : Token} (taken : r.step token = .ok next) :
    r.run (token :: rest) = next.run rest := by
  rw [run, taken]

theorem enter_of_room {container : Container} {next : Reading}
    (room : frames.length < nestingLimit) : enter container frames next = .ok next := by
  rw [enter, if_pos room]

/-- The first element of an array is read like any other. -/
theorem run_firstElement : run ⟨frames, .firstElement⟩ (x.written ++ rest) =
    run ⟨frames, .value⟩ (x.written ++ rest) := by
  cases x with
  | scalar s => cases s <;> rfl
  | array xs => cases xs <;> rfl
  | object ms => rcases ms with _ | ⟨⟨name, y⟩, ms⟩ <;> rfl

theorem run_elements {xs before : List Json} (parts : ∀ y ∈ xs, y.Completes)
    (room : frames.length + 1 + nestingOfElements xs ≤ nestingLimit) :
    run ⟨.array before :: frames, .complete x⟩ (writtenElements xs ++ .closeArray :: rest) =
      run ⟨frames, .complete (.array ((x :: before).reverse ++ xs))⟩ rest := by
  induction xs generalizing x before with
  | nil =>
    rw [List.append_nil]
    exact run_cons rfl
  | cons y ys ih =>
    obtain ⟨first, others⟩ := List.forall_mem_cons.1 parts
    rw [nestingOfElements] at room
    simp only [writtenElements, List.cons_append, List.append_assoc]
    rw [run_cons rfl, first, ih others]
    · simp
    · omega
    · simp only [List.length_cons]
      omega

theorem put_of_distinct {before ms : List (Text × Json)} {name : Text}
    (distinct : ((before ++ (name, x) :: ms).map Prod.fst).Nodup) :
    Keyed.put name x before = before ++ [(name, x)] := by
  apply Keyed.put_of_unused
  intro used
  rw [List.map_append, List.nodup_append] at distinct
  exact distinct.2.2 name used name List.mem_cons_self rfl

theorem run_members {ms before : List (Text × Json)} {name : Text}
    (parts : ∀ m ∈ ms, m.2.Completes)
    (distinct : ((before ++ (name, x) :: ms).map Prod.fst).Nodup)
    (room : frames.length + 1 + nestingOfMembers ms ≤ nestingLimit) :
    run ⟨.object before name :: frames, .complete x⟩ (writtenMembers ms ++ .closeObject :: rest) =
      run ⟨frames, .complete (.object (before ++ (name, x) :: ms))⟩ rest := by
  induction ms generalizing x before name with
  | nil =>
    have closed : step ⟨.object before name :: frames, .complete x⟩ .closeObject =
        .ok ⟨frames, .complete (.object (Keyed.put name x before))⟩ := rfl
    rw [put_of_distinct distinct] at closed
    exact run_cons closed
  | cons m ms ih =>
    obtain ⟨other, y⟩ := m
    obtain ⟨first, others⟩ := List.forall_mem_cons.1 parts
    rw [nestingOfMembers] at room
    have next : step ⟨.object before name :: frames, .complete x⟩ .comma =
        .ok ⟨frames, .name (Keyed.put name x before)⟩ := rfl
    rw [put_of_distinct distinct] at next
    have appended : before ++ (name, x) :: (other, y) :: ms =
        before ++ [(name, x)] ++ (other, y) :: ms := by simp
    rw [appended] at distinct ⊢
    simp only [writtenMembers, List.cons_append, List.append_assoc, List.nil_append]
    rw [run_cons next, run_cons rfl, run_cons rfl, first, ih others distinct]
    · simp
    · omega
    · simp only [List.length_cons]
      omega

end Reading

theorem Legible.completes {v : Json} (h : v.Legible) : v.Completes := by
  induction h with
  | string scalar =>
    intro frames rest _
    exact Reading.run_cons rfl
  | @array xs _ ih =>
    intro frames rest room
    rw [nesting] at room
    have inner : frames.length < Reading.nestingLimit := by omega
    have opened : Reading.step ⟨frames, .value⟩ .openArray =
        .ok ⟨.array [] :: frames, .firstElement⟩ := Reading.enter_of_room inner
    cases xs with
    | nil =>
      simp only [written, List.cons_append, List.nil_append]
      rw [Reading.run_cons opened]
      exact Reading.run_cons rfl
    | cons x xs =>
      obtain ⟨first, others⟩ := List.forall_mem_cons.1 ih
      rw [nestingOfElements] at room
      simp only [written, List.cons_append, List.append_assoc, List.nil_append]
      rw [Reading.run_cons opened, Reading.run_firstElement, first,
        Reading.run_elements others (by omega)]
      · rfl
      · simp only [List.length_cons]
        omega
  | @object ms distinct _ _ ih =>
    intro frames rest room
    rw [nesting] at room
    have inner : frames.length < Reading.nestingLimit := by omega
    have opened : Reading.step ⟨frames, .value⟩ .openObject = .ok ⟨frames, .firstName⟩ :=
      Reading.enter_of_room inner
    rcases ms with _ | ⟨⟨name, x⟩, ms⟩
    · simp only [written, List.cons_append, List.nil_append]
      rw [Reading.run_cons opened]
      exact Reading.run_cons rfl
    · obtain ⟨first, others⟩ := List.forall_mem_cons.1 ih
      rw [nestingOfMembers] at room
      simp only [written, List.cons_append, List.append_assoc, List.nil_append]
      rw [Reading.run_cons opened, Reading.run_cons rfl, Reading.run_cons rfl, first,
        Reading.run_members others distinct]
      · rfl
      · simp only
        omega
      · simp only [List.length_cons]
        omega

section Read
variable {style : Style} {v : Json}

theorem parse_written (h : v.Legible) (room : v.nesting ≤ Reading.nestingLimit) :
    parse v.written = .ok v := by
  have fits : ([] : List Frame).length + v.nesting ≤ Reading.nestingLimit := by
    simp only [List.length_nil]
    omega
  have completed := h.completes [] [] fits
  rw [List.append_nil] at completed
  rw [parse, Reading.start, completed]
  rfl

theorem print_ne_byteOrderMark (h : v.Legible) {d : Nat} {rest : Text} :
    print style d v ≠ .char '\uFEFF' :: rest := by
  cases h with
  | string => simp [Json.string, print, printScalar, quote]
  | @array xs => cases xs <;> simp [print]
  | @object ms => rcases ms with _ | ⟨⟨name, x⟩, ms⟩ <;> simp [print]

theorem read_print (readable : style.Readable) (h : v.Legible)
    (room : v.nesting ≤ Reading.nestingLimit) : read (print style 0 v) = .ok v := by
  have cut := tokens_print readable h 0 []
  rw [List.append_nil, tokens_nil, List.append_nil] at cut
  unfold read
  split
  · next same => exact absurd same (print_ne_byteOrderMark h)
  · have parsed := parse_written h room
    rw [← cut, tokens] at parsed
    rw [readDecoded]
    simp only [parsed]

end Read

end Json

namespace Schema

/-- The names that a schema gives itself and its fields. -/
def ownNames : Schema → List Text
  | .array name _ => name.toList
  | .record name fields => name :: fields.map Prod.fst
  | _ => []

/-- Whether all names inside a schema consist of characters. -/
def ScalarNames (t : Schema) : Prop := t.Everywhere fun part => ∀ n ∈ part.ownNames, n.Scalar

/-- Whether a schema has texts that can be read. -/
structure Printable (t : Schema) : Prop where
  names : t.ScalarNames
  nesting : t.toJson.nesting ≤ Json.Reading.nestingLimit

theorem scalar_ofString (s : String) : (Text.ofString s).Scalar := by
  intro p hp
  obtain ⟨c, _, rfl⟩ := List.mem_map.1 hp
  exact ⟨c, rfl⟩

theorem legible_word (s : String) : (Json.string s).Legible := .string (scalar_ofString s)

theorem legible_keyword (k : Kind) : (Json.string k.keyword).Legible := by
  cases k <;> exact legible_word _

/-- An object is legible if the words under which it keeps its members differ. -/
theorem legible_object {ms : List (Text × Json)} (words : List String) (distinct : words.Nodup)
    (same : ms.map Prod.fst = words.map Text.ofString) (members : ∀ m ∈ ms, m.2.Legible) :
    (Json.object ms).Legible := by
  refine .object ?_ ?_ members
  · rw [same, List.nodup_iff_pairwise_ne, List.pairwise_map]
    rw [List.nodup_iff_pairwise_ne] at distinct
    apply distinct.imp
    intro a b differ spelled
    have shown := congrArg Text.toString spelled
    rw [Text.toString_ofString, Text.toString_ofString] at shown
    exact differ shown
  · intro m hm
    have named : m.1 ∈ ms.map Prod.fst := List.mem_map_of_mem hm
    rw [same] at named
    obtain ⟨word, _, spelled⟩ := List.mem_map.1 named
    rw [← spelled]
    exact scalar_ofString word

theorem toJson_legible {t : Schema} (h : t.ScalarNames) : t.toJson.Legible := by
  induction t using induction_parts with
  | primitive k => exact legible_keyword k
  | array name items ih =>
    obtain ⟨own, inside⟩ := everywhere_array.1 h
    have word := legible_word "array"
    have below := ih inside
    cases name with
    | none =>
      apply legible_object ["type", "items"] (by decide) rfl
      exact List.forall_mem_cons.2 ⟨word, List.forall_mem_singleton.2 below⟩
    | some n =>
      have named : (Json.string n).Legible := .string (own n List.mem_cons_self)
      apply legible_object ["name", "type", "items"] (by decide) rfl
      exact List.forall_mem_cons.2
        ⟨named, List.forall_mem_cons.2 ⟨word, List.forall_mem_singleton.2 below⟩⟩
  | record name fields ih =>
    obtain ⟨own, inside⟩ := everywhere_record.1 h
    obtain ⟨named, names⟩ := List.forall_mem_cons.1 own
    have members : (Json.array (fieldsToJson fields)).Legible := by
      rw [fieldsToJson_eq_map]
      apply Json.Legible.array
      intro x hx
      obtain ⟨⟨f, t⟩, hf, rfl⟩ := List.mem_map.1 hx
      have field : (Json.string f).Legible := .string (names f (List.mem_map_of_mem hf))
      apply legible_object ["name", "type"] (by decide) rfl
      exact List.forall_mem_cons.2 ⟨field, List.forall_mem_singleton.2 (ih f t hf (inside f t hf))⟩
    apply legible_object ["type", "name", "fields"] (by decide) rfl
    exact List.forall_mem_cons.2 ⟨legible_word "record",
      List.forall_mem_cons.2 ⟨.string named, List.forall_mem_singleton.2 members⟩⟩
  | union branches ih =>
    obtain ⟨_, inside⟩ := everywhere_union.1 h
    rw [toJson, branchesToJson_eq_map]
    apply Json.Legible.array
    intro x hx
    obtain ⟨b, hb, rfl⟩ := List.mem_map.1 hx
    exact ih b hb (inside b hb)

theorem read_text {t : Schema} (h : t.Printable) : Json.read t.text = .ok t.toJson :=
  Json.read_print Json.compactStyle_readable (toJson_legible h.names) h.nesting

theorem read_indented {t : Schema} (h : t.Printable) :
    Json.read t.toJson.indented = .ok t.toJson :=
  Json.read_print Json.indentedStyle_readable (toJson_legible h.names) h.nesting

/-- Both texts of a schema give back its structure, so that either tells it from the others. -/
theorem rendering_lossless {s t : Schema} (hs : s.Printable) (ht : t.Printable) :
    (Json.read s.text = .ok s.toJson ∧ Json.read s.toJson.indented = .ok s.toJson) ∧
      Function.Injective toJson ∧ (s = t ↔ s.text = t.text) ∧
      (s = t ↔ s.toJson.indented = t.toJson.indented) := by
  refine ⟨⟨read_text hs, read_indented hs⟩, toJson_injective, ?_, ?_⟩
  · refine ⟨congrArg text, fun same => ?_⟩
    have back := read_text hs
    rw [same, read_text ht] at back
    exact toJson_injective (Except.ok.inj back).symm
  · refine ⟨congrArg fun r : Schema => r.toJson.indented, fun same => ?_⟩
    have back := read_indented hs
    rw [same, read_indented ht] at back
    exact toJson_injective (Except.ok.inj back).symm

/-- Names with quotes, controls and characters of two code units, in arrays that differ by name. -/
theorem rendering_lossless_of_escapes :
    let inner : Schema := .union [.primitive .null, .array none (.primitive .int),
      .record "a\"b\\" [("\n\u0001/", .primitive .long)]]
    let named : Schema := .record "\u007f😀" [("é", .array (some "],[") inner)]
    let unnamed : Schema := .record "\u007f😀" [("é", .array none inner)]
    (named.Printable ∧ unnamed.Printable) ∧
      (Json.read named.text = .ok named.toJson ∧
        Json.read named.toJson.indented = .ok named.toJson) ∧
      named.text ≠ unnamed.text ∧ named.toJson.indented ≠ unnamed.toJson.indented := by
  intro inner named unnamed
  have printable : named.Printable := by
    refine ⟨?_, by decide⟩
    simp [named, inner, ScalarNames, Everywhere, EverywhereFields, EverywhereBranches, ownNames,
      scalar_ofString]
  have printable' : unnamed.Printable := by
    refine ⟨?_, by decide⟩
    simp [unnamed, inner, ScalarNames, Everywhere, EverywhereFields, EverywhereBranches, ownNames,
      scalar_ofString]
  have differ : named ≠ unnamed := by decide
  obtain ⟨back, _, text, indented⟩ := rendering_lossless printable printable'
  exact ⟨⟨printable, printable'⟩, back, fun h => differ (text.2 h), fun h => differ (indented.2 h)⟩

end Schema

end SchemaInference
