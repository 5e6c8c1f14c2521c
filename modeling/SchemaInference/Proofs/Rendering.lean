import Mathlib.Logic.Function.Basic
import SchemaInference.Json.Token
import SchemaInference.Proofs.Everywhere
import SchemaInference.Schema.Rendering

/-!
# The text of a schema

No printed string or container is the beginning of another, so that what is printed can be
told from what follows it.  Schemas with the same text are therefore equal.
-/

namespace SchemaInference

namespace Json

section Escapes

theorem unescape?_of_shortEscape? {p : CodePoint} {e : Char} (h : shortEscape? p = some e) :
    ∃ c, unescape? (.char e) = some c ∧ p = .char c := by
  unfold shortEscape? at h
  split at h
  all_goals cases h
  all_goals exact ⟨_, rfl, rfl⟩

theorem hexDigit?_digitChar {d : Nat} (h : d < 16) :
    hexDigit? (.char (Nat.digitChar d)) = some d := by
  revert d
  decide

theorem codeUnit?_digits {u : Nat} (h : u < 0x10000) :
    codeUnit? (Nat.digitChar (u / 0x1000 % 16)) (Nat.digitChar (u / 0x100 % 16))
      (Nat.digitChar (u / 0x10 % 16)) (Nat.digitChar (u % 16)) = some u := by
  have digit (n : Nat) : hexDigit? (.char (Nat.digitChar (n % 16))) = some (n % 16) :=
    hexDigit?_digitChar (Nat.mod_lt n (by decide))
  simp only [codeUnit?, digit, Option.bind_eq_bind, Option.bind_some]
  congr 1
  omega

/-- Two escapes of code units are told apart by their digits. -/
theorem unitEscape_cancel {u v : Nat} {r s : Text} (hu : u < 0x10000) (hv : v < 0x10000)
    (h : unitEscape u ++ r = unitEscape v ++ s) : u = v ∧ r = s := by
  simp only [unitEscape, List.cons_append, List.nil_append, List.cons.injEq, true_and] at h
  obtain ⟨ha, hb, hc, hd, h⟩ := h
  have digits := codeUnit?_digits hu
  rw [ha, hb, hc, hd, codeUnit?_digits hv] at digits
  exact ⟨(Option.some.inj digits).symm, h⟩

/-- How a code point is spelled in the compact style. -/
theorem spell_cases (p : CodePoint) :
    (∃ e, shortEscape? p = some e ∧ spell compactStyle p = [.char '\\', .char e]) ∨
    (p.number < 0x20 ∧ spell compactStyle p = unitEscape p.number) ∨
    (spell compactStyle p = [p] ∧ p ≠ .char '\\' ∧ p ≠ .char '"') := by
  unfold spell
  cases short : shortEscape? p with
  | some e => exact .inl ⟨e, rfl, rfl⟩
  | none =>
    refine .inr ?_
    by_cases control : p.number < 0x20
    · refine .inl ⟨control, ?_⟩
      have fits : p.number < 0x10000 := by omega
      simp [compactStyle, control, CodeUnit.ofCodePoint, fits]
    · refine .inr ⟨by simp [compactStyle, control], ?_, ?_⟩
      all_goals
        rintro rfl
        cases short

theorem spell_cancel {p q : CodePoint} {r s : Text}
    (h : spell compactStyle p ++ r = spell compactStyle q ++ s) : p = q ∧ r = s := by
  have unit {e : Char} {p : CodePoint} (short : shortEscape? p = some e) : e ≠ 'u' := by
    rintro rfl
    obtain ⟨c, hc, _⟩ := unescape?_of_shortEscape? short
    cases hc
  rcases spell_cases p with ⟨e, hp, ep⟩ | ⟨cp, ep⟩ | ⟨ep, bp, _⟩ <;>
    rcases spell_cases q with ⟨f, hq, eq⟩ | ⟨cq, eq⟩ | ⟨eq, bq, _⟩ <;>
    rw [ep, eq] at h
  · simp only [List.cons_append, List.nil_append, List.cons.injEq, true_and,
      CodePoint.char.injEq] at h
    obtain ⟨rfl, rfl⟩ := h
    obtain ⟨c, hc, rfl⟩ := unescape?_of_shortEscape? hp
    obtain ⟨d, hd, rfl⟩ := unescape?_of_shortEscape? hq
    cases hc.symm.trans hd
    exact ⟨rfl, rfl⟩
  · simp [unitEscape] at h
    exact absurd h.1 (unit hp)
  · simp at h
    exact absurd h.1.symm bq
  · simp [unitEscape] at h
    exact absurd h.1.symm (unit hq)
  · obtain ⟨same, rest⟩ := unitEscape_cancel (by omega) (by omega) h
    exact ⟨CodePoint.number_injective same, rest⟩
  · simp [unitEscape] at h
    exact absurd h.1.symm bq
  · simp at h
    exact absurd h.1 bp
  · simp [unitEscape] at h
    exact absurd h.1 bp
  · simpa using h

theorem spell_ne_quote {p : CodePoint} {r s : Text} :
    spell compactStyle p ++ r ≠ .char '"' :: s := by
  rcases spell_cases p with ⟨e, _, ep⟩ | ⟨_, ep⟩ | ⟨ep, _, bp⟩
  · simp [ep]
  · simp [ep, unitEscape]
  · simp [ep, bp]

theorem quote_cancel {a b r s : Text}
    (h : quote compactStyle a ++ r = quote compactStyle b ++ s) : a = b ∧ r = s := by
  simp only [quote, List.cons_append, List.append_assoc, List.nil_append, List.cons.injEq,
    true_and] at h
  induction a generalizing b with
  | nil =>
    cases b with
    | nil => simpa using h
    | cons q b =>
      rw [List.flatMap_cons, List.append_assoc] at h
      exact absurd h.symm spell_ne_quote
  | cons p a ih =>
    cases b with
    | nil =>
      rw [List.flatMap_cons, List.append_assoc] at h
      exact absurd h spell_ne_quote
    | cons q b =>
      rw [List.flatMap_cons, List.flatMap_cons, List.append_assoc, List.append_assoc] at h
      obtain ⟨rfl, later⟩ := spell_cancel h
      obtain ⟨rfl, rest⟩ := ih later
      exact ⟨rfl, rest⟩

end Escapes

/-- Whether all scalars of a value are strings. -/
inductive Textual : Json → Prop where
  | string (s : Text) : Textual (.string s)
  | array {xs : List Json} (elements : ∀ x ∈ xs, Textual x) : Textual (.array xs)
  | object {ms : List (Text × Json)} (members : ∀ m ∈ ms, Textual m.2) : Textual (.object ms)

/-- Whether the text of a value can be told from what follows it, among textual values. -/
def Delimited (a : Json) : Prop :=
  ∀ {b : Json} {d e : Nat} {r s : Text}, b.Textual →
    print compactStyle d a ++ r = print compactStyle e b ++ s → a = b ∧ r = s

section Containers
variable {d e : Nat} {r s : Text} {x : Json} {xs : List Json} {name : Text}
  {ms : List (Text × Json)}

theorem print_string (s : Text) : print compactStyle d (.string s) = quote compactStyle s := rfl

theorem print_array_cons : print compactStyle d (.array (x :: xs)) ++ r =
    .char '[' :: (print compactStyle (d + 1) x ++
      (printElements compactStyle (d + 1) xs ++ .char ']' :: r)) := by
  simp [print, compactStyle]

theorem printElements_cons : printElements compactStyle d (x :: xs) ++ r =
    .char ',' :: (print compactStyle d x ++ (printElements compactStyle d xs ++ r)) := by
  simp [printElements, compactStyle]

theorem print_object_cons : print compactStyle d (.object ((name, x) :: ms)) ++ r =
    .char '{' :: (quote compactStyle name ++ .char ':' :: (print compactStyle (d + 1) x ++
      (printMembers compactStyle (d + 1) ms ++ .char '}' :: r))) := by
  simp [print, compactStyle]

theorem printMembers_cons : printMembers compactStyle d ((name, x) :: ms) ++ r =
    .char ',' :: (quote compactStyle name ++ .char ':' :: (print compactStyle d x ++
      (printMembers compactStyle d ms ++ r))) := by
  simp [printMembers, compactStyle]

/-- The text of a textual value does not begin like what may stand behind one. -/
theorem print_ne_closing (h : x.Textual) : print compactStyle d x ++ r ≠ .char ']' :: s := by
  cases h with
  | string => simp [print_string, quote]
  | @array xs => cases xs <;> simp [print]
  | @object ms => rcases ms with _ | ⟨⟨name, y⟩, ms⟩ <;> simp [print]

theorem printElements_cancel {ys : List Json} (parts : ∀ x ∈ xs, x.Delimited)
    (textual : ∀ y ∈ ys, y.Textual)
    (h : printElements compactStyle d xs ++ .char ']' :: r =
      printElements compactStyle e ys ++ .char ']' :: s) : xs = ys ∧ r = s := by
  induction xs generalizing ys with
  | nil =>
    cases ys with
    | nil => simpa [printElements] using h
    | cons y ys => simp [printElements] at h
  | cons x xs ih =>
    cases ys with
    | nil => simp [printElements] at h
    | cons y ys =>
      rw [printElements_cons, printElements_cons] at h
      obtain ⟨first, others⟩ := List.forall_mem_cons.1 parts
      obtain ⟨hy, hys⟩ := List.forall_mem_cons.1 textual
      obtain ⟨rfl, later⟩ := first hy (List.cons.inj h).2
      obtain ⟨rfl, rest⟩ := ih others hys later
      exact ⟨rfl, rest⟩

theorem printMembers_cancel {ns : List (Text × Json)} (parts : ∀ m ∈ ms, m.2.Delimited)
    (textual : ∀ n ∈ ns, n.2.Textual)
    (h : printMembers compactStyle d ms ++ .char '}' :: r =
      printMembers compactStyle e ns ++ .char '}' :: s) : ms = ns ∧ r = s := by
  induction ms generalizing ns with
  | nil =>
    rcases ns with _ | ⟨⟨name, y⟩, ns⟩
    · simpa [printMembers] using h
    · simp [printMembers] at h
  | cons m ms ih =>
    obtain ⟨name, x⟩ := m
    rcases ns with _ | ⟨⟨other, y⟩, ns⟩
    · simp [printMembers] at h
    rw [printMembers_cons, printMembers_cons] at h
    obtain ⟨first, others⟩ := List.forall_mem_cons.1 parts
    obtain ⟨hy, hns⟩ := List.forall_mem_cons.1 textual
    obtain ⟨rfl, behind⟩ := quote_cancel (List.cons.inj h).2
    obtain ⟨rfl, later⟩ := first hy (List.cons.inj behind).2
    obtain ⟨rfl, rest⟩ := ih others hns later
    exact ⟨rfl, rest⟩

end Containers

/-- Textual values are told apart by their first characters and then by their parts. -/
theorem Textual.delimited {a : Json} (h : a.Textual) : a.Delimited := by
  induction h with
  | string t =>
    intro b d e r s hb same
    cases hb with
    | string u =>
      obtain ⟨rfl, rest⟩ := quote_cancel same
      exact ⟨rfl, rest⟩
    | @array ys => cases ys <;> simp [print, print_string, quote] at same
    | @object ns =>
      rcases ns with _ | ⟨⟨name, y⟩, ns⟩ <;> simp [print, print_string, quote] at same
  | @array xs elements ih =>
    intro b d e r s hb same
    cases hb with
    | string u => cases xs <;> simp [print, print_string, quote] at same
    | @array ys textual =>
      rcases xs with _ | ⟨x, xs⟩ <;> rcases ys with _ | ⟨y, ys⟩
      · simpa [print] using same
      -- an empty array closes where another one has the text of an element
      · rw [print_array_cons, print] at same
        exact absurd (List.cons.inj same).2.symm (print_ne_closing (textual y List.mem_cons_self))
      · rw [print_array_cons, print] at same
        exact absurd (List.cons.inj same).2 (print_ne_closing (elements x List.mem_cons_self))
      · rw [print_array_cons, print_array_cons] at same
        obtain ⟨hy, hys⟩ := List.forall_mem_cons.1 textual
        obtain ⟨first, others⟩ := List.forall_mem_cons.1 ih
        obtain ⟨rfl, later⟩ := first hy (List.cons.inj same).2
        obtain ⟨rfl, rest⟩ := printElements_cancel others hys later
        exact ⟨rfl, rest⟩
    | @object ns =>
      cases xs <;> rcases ns with _ | ⟨⟨name, y⟩, ns⟩ <;> simp [print] at same
  | @object ms _ ih =>
    intro b d e r s hb same
    cases hb with
    | string u => rcases ms with _ | ⟨⟨name, x⟩, ms⟩ <;> simp [print, print_string, quote] at same
    | @array ys => rcases ms with _ | ⟨⟨name, x⟩, ms⟩ <;> cases ys <;> simp [print] at same
    | @object ns textual =>
      rcases ms with _ | ⟨⟨name, x⟩, ms⟩ <;> rcases ns with _ | ⟨⟨other, y⟩, ns⟩
      · simpa [print] using same
      · simp [print, quote, compactStyle] at same
      · simp [print, quote, compactStyle] at same
      · rw [print_object_cons, print_object_cons] at same
        obtain ⟨hy, hns⟩ := List.forall_mem_cons.1 textual
        obtain ⟨first, others⟩ := List.forall_mem_cons.1 ih
        obtain ⟨rfl, behind⟩ := quote_cancel (List.cons.inj same).2
        obtain ⟨rfl, later⟩ := first hy (List.cons.inj behind).2
        obtain ⟨rfl, rest⟩ := printMembers_cancel others hns later
        exact ⟨rfl, rest⟩

theorem Textual.eq_of_compact {a b : Json} (ha : a.Textual) (hb : b.Textual)
    (h : a.compact = b.compact) : a = b := by
  have same : print compactStyle 0 a ++ [] = print compactStyle 0 b ++ [] := by
    rw [List.append_nil, List.append_nil]
    exact h
  exact (ha.delimited hb same).1

end Json

namespace Schema

theorem fieldsToJson_eq_map (fields : List (Text × Schema)) : fieldsToJson fields =
    fields.map fun f => .object [("name", .string f.1), ("type", f.2.toJson)] := by
  induction fields with
  | nil => rfl
  | cons f rest ih => rw [fieldsToJson, ih, List.map_cons]

theorem branchesToJson_eq_map (branches : List Schema) :
    branchesToJson branches = branches.map toJson := by
  induction branches with
  | nil => rfl
  | cons b rest ih => rw [branchesToJson, ih, List.map_cons]

theorem toJson_textual (t : Schema) : t.toJson.Textual := by
  have word (s : Text) : (Json.string s).Textual := .string s
  induction t using induction_parts with
  | primitive k => exact .string k.keyword
  | array n items ih =>
    cases n with
    | none => exact .object (by simp [word, ih])
    | some n => exact .object (by simp [word, ih])
  | record n fields ih =>
    have members : (Json.array (fieldsToJson fields)).Textual := by
      rw [fieldsToJson_eq_map]
      refine .array fun x hx => ?_
      obtain ⟨⟨f, t⟩, hf, rfl⟩ := List.mem_map.1 hx
      exact .object (by simp [word, ih f t hf])
    exact .object (by simp [word, members])
  | union branches ih =>
    rw [toJson, branchesToJson_eq_map]
    refine .array fun x hx => ?_
    obtain ⟨b, hb, rfl⟩ := List.mem_map.1 hx
    exact ih b hb

theorem eq_of_map_eq {α β : Type} {f : α → β} {xs ys : List α}
    (inj : ∀ x ∈ xs, ∀ y, f x = f y → x = y) (h : xs.map f = ys.map f) : xs = ys := by
  induction xs generalizing ys with
  | nil => exact (List.map_eq_nil_iff.1 h.symm).symm
  | cons x xs ih =>
    cases ys with
    | nil => cases h
    | cons y ys =>
      obtain ⟨first, others⟩ := List.forall_mem_cons.1 inj
      obtain ⟨same, rest⟩ := List.cons.inj h
      rw [first y same, ih others rest]

theorem toJson_injective : Function.Injective toJson := by
  intro s
  induction s using induction_parts with
  | primitive k =>
    intro t h
    cases t with
    | primitive l =>
      simp only [toJson, Json.string, Json.scalar.injEq, Scalar.string.injEq] at h
      rw [Kind.keyword_injective h]
    | array m => cases m <;> simp [toJson, Json.string] at h
    | _ => simp [toJson, Json.string] at h
  | array n items ih =>
    intro t h
    cases t with
    | array m others =>
      cases n <;> cases m
      · simp only [toJson, Json.object.injEq, List.cons.injEq, Prod.mk.injEq, true_and] at h
        rw [ih h.1]
      · simp [toJson] at h
      · simp [toJson] at h
      · simp only [toJson, Json.string, Json.object.injEq, List.cons.injEq, Prod.mk.injEq, true_and,
          Json.scalar.injEq, Scalar.string.injEq] at h
        rw [h.1, ih h.2.1]
    | primitive l => cases n <;> simp [toJson, Json.string] at h
    | record m gs =>
      -- a named array has the keys of a record, but another word for what it is
      cases n <;> simp [toJson, Json.string] at h
      exact absurd h.1.1 (by decide)
    | union => cases n <;> simp [toJson] at h
  | record n fields ih =>
    intro t h
    cases t with
    | record m gs =>
      simp only [toJson, Json.string, Json.object.injEq, List.cons.injEq, Prod.mk.injEq, true_and,
        Json.scalar.injEq, Scalar.string.injEq, fieldsToJson_eq_map, Json.array.injEq] at h
      obtain ⟨rfl, same, _⟩ := h
      refine congrArg _ (eq_of_map_eq (fun (f, s) hf (g, t) h => ?_) same)
      simp only [Json.object.injEq, List.cons.injEq, Prod.mk.injEq, true_and,
        Json.scalar.injEq, Scalar.string.injEq] at h
      rw [h.1, ih f s hf h.2.1]
    | array m =>
      cases m <;> simp [toJson, Json.string] at h
      exact absurd h.2.1.1 (by decide)
    | _ => simp [toJson, Json.string] at h
  | union branches ih =>
    intro t h
    cases t with
    | union others =>
      simp only [toJson, branchesToJson_eq_map, Json.array.injEq] at h
      rw [eq_of_map_eq (fun b hb c h => ih b hb h) h]
    | array m => cases m <;> simp [toJson] at h
    | _ => simp [toJson, Json.string] at h

theorem text_injective : Function.Injective text := fun s t h =>
  toJson_injective (s.toJson_textual.eq_of_compact t.toJson_textual h)

end Schema

end SchemaInference
