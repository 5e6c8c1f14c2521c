import SchemaInference.Proofs.Fits
import SchemaInference.Proofs.Objects

/-!
# Inhabitants of schemas

Which tags are read depends on where a schema stands.  A branch of a union reads its tag,
as does a scalar that is left of a union, but an array or a record that stands for itself
does not: what is told of it by a tag would be lost as soon as it is joined.  The
inhabitants of a schema are the values that fit it with the tags that are read there.
Empty objects are lost where a record is unpacked, so it is left open whether they count
as inhabitants of everything: what they then inhabit, they inhabit in any case if a record
stands wherever they do.
-/

namespace SchemaInference

open Schema

/-- Whether a value is described by a schema in its place; empty objects count if `vacant` holds. -/
inductive Json.Inhabits (vacant : Prop) : Json → Schema → Prop where
  | empty (all : vacant) (t : Schema) : Inhabits vacant (.object []) t
  | null (t : Schema) : Inhabits vacant (.scalar .null) t
  | scalar {s : Scalar} {k : Kind} (fits : s.Fits k) : Inhabits vacant (.scalar s) (.primitive k)
  | array {elements : List Json} {name : Option Text} {items : Schema}
    (fits : ∀ v ∈ elements, Inhabits vacant v items) :
    Inhabits vacant (.array elements) (.array name items)
  | object {members : List (Text × Json)} {name : Text} {fields : List (Text × Schema)}
    (distinct : (members.map Prod.fst).Nodup)
    (known : ∀ f v, (f, v) ∈ members → ∃ t, fields.lookup f = some t)
    (fits : ∀ f v t, (f, v) ∈ members → fields.lookup f = some t → Inhabits vacant v t) :
    Inhabits vacant (.object members) (.record name fields)
  | branch {v : Json} {branches : List Schema} {b : Schema} (mem : b ∈ branches)
    (fits : Inhabits vacant v b) : Inhabits vacant v (.union branches)
  | wrapped {tag : Text} {v : Json} {branches : List Schema} {b : Schema} (mem : b ∈ branches)
    (named : b.HasTag tag) (fits : Inhabits vacant v b) :
    Inhabits vacant (.object [(tag, v)]) (.union branches)
  | tagged {tag : Text} {v : Json} {k : Kind} (full : k ≠ .null)
    (named : (primitive k).HasTag tag) (fits : Inhabits vacant v (.primitive k)) :
    Inhabits vacant (.object [(tag, v)]) (.primitive k)

/-- Whether a value is described by a branch of a union, its tag being read. -/
def Json.InhabitsBranch (vacant : Prop) (v : Json) (b : Schema) : Prop :=
  v.Inhabits vacant b ∨ ∃ tag w, v = .object [(tag, w)] ∧ b.HasTag tag ∧ w.Inhabits vacant b

namespace Json.Inhabits
variable {vacant : Prop} {v : Json} {s t : Schema}

theorem fits (h : v.Inhabits False t) : v.Fits True t := by
  induction h with
  | empty all => exact all.elim
  | null t => exact .null t
  | scalar fits => exact .scalar fits
  | array _ ih => exact .array ih
  | object _ known _ ih => exact .object known ih
  | branch mem _ ih => exact .branch mem ih
  | wrapped mem named _ ih => exact .branch mem (.tagged trivial named ih)
  | tagged _ named _ ih => exact .tagged trivial named ih

theorem weaken {vacant' : Prop} (h : v.Inhabits vacant t) (weaker : vacant → vacant') :
    v.Inhabits vacant' t := by
  induction h with
  | empty all t => exact .empty (weaker all) t
  | null t => exact .null t
  | scalar fits => exact .scalar fits
  | array _ ih => exact .array ih
  | object distinct known _ ih => exact .object distinct known ih
  | branch mem _ ih => exact .branch mem ih
  | wrapped mem named _ ih => exact .wrapped mem named ih
  | tagged value named _ ih => exact .tagged value named ih

theorem of_null (h : v.Inhabits vacant .null) (t : Schema) : v.Inhabits vacant t := by
  cases h with
  | empty all => exact .empty all t
  | null => exact .null t
  | @scalar s _ fits =>
    cases s with
    | null => exact .null t
    | integer n => cases fits
    | _ => cases fits
  | tagged full => exact absurd rfl full

/-- What inhabits a record with one field is an object with one member or nothing. -/
theorem of_single {name tag : Text} (h : v.Inhabits vacant (.record name [(tag, s)])) :
    v = .scalar .null ∨ v = .object [] ∨ ∃ w, v = .object [(tag, w)] ∧ w.Inhabits vacant s := by
  cases h with
  | empty => exact .inr (.inl rfl)
  | null => exact .inl rfl
  | @object members _ _ distinct known fits =>
    have key : ∀ m ∈ members, m.1 = tag := by
      intro m hm
      obtain ⟨t, found⟩ := known m.1 m.2 hm
      cases List.mem_singleton.1 (mem_of_lookup found)
      rfl
    match members with
    | [] => exact .inr (.inl rfl)
    | [(f, w)] =>
      have heq : f = tag := key (f, w) List.mem_cons_self
      subst heq
      exact .inr (.inr ⟨w, rfl, fits f w s List.mem_cons_self (by simp)⟩)
    | m :: m' :: _ =>
      have same := (key m (by simp)).trans (key m' (by simp)).symm
      simp [same] at distinct

end Json.Inhabits

theorem Schema.inhabits_empty {vacant : Prop} {r : Record} {t : Schema}
    (h : r.schema ∈ t.branches) : (Json.object []).Inhabits vacant t := by
  have record : (Json.object []).Inhabits vacant r.schema := .object .nil nofun nofun
  cases t with
  | union bs => exact .branch h record
  | _ => exact List.mem_singleton.1 h ▸ record

namespace Json

/--
Whether a record stands wherever an empty object stands in a value, in every branch of a
union that may describe the value.
-/
inductive EmptyPlaced : Json → Schema → Prop where
  | full {v : Json} (none : v.NoEmptyObject) (t : Schema) : EmptyPlaced v t
  | empty {r : Record} {t : Schema} (place : r.schema ∈ t.branches) : EmptyPlaced (.object []) t
  | array {elements : List Json} {name : Option Text} {items : Schema}
    (parts : ∀ v ∈ elements, EmptyPlaced v items) : EmptyPlaced (.array elements) (.array name items)
  | object {members : List (Text × Json)} {name : Text} {fields : List (Text × Schema)}
    (parts : ∀ f v t, (f, v) ∈ members → fields.lookup f = some t → EmptyPlaced v t) :
    EmptyPlaced (.object members) (.record name fields)
  | union {v : Json} {branches : List Schema} (filled : v ≠ .object [])
    (branch : ∀ b ∈ branches, v.Inhabits True b → EmptyPlaced v b)
    (wrapped : ∀ tag w b, v = .object [(tag, w)] → b ∈ branches → b.HasTag tag →
      w.Inhabits True b → EmptyPlaced w b) : EmptyPlaced v (.union branches)
  | tagged {tag : Text} {w : Json} {k : Kind} (part : EmptyPlaced w (.primitive k)) :
    EmptyPlaced (.object [(tag, w)]) (.primitive k)

namespace EmptyPlaced
variable {v w : Json} {t b : Schema} {tag : Text}

theorem inhabits (h : EmptyPlaced (.object []) t) : (Json.object []).Inhabits False t := by
  cases h with
  | full none => exact absurd rfl (everyObject_object.1 none).1
  | empty place => exact inhabits_empty place
  | object => exact .object .nil nofun nofun
  | union filled => exact absurd rfl filled

theorem inner (none : (Json.object [(tag, w)]).NoEmptyObject) (t : Schema) : w.EmptyPlaced t :=
  .full ((everyObject_object.1 none).2 (tag, w) List.mem_cons_self) t

theorem element {elements : List Json} {name : Option Text}
    (h : EmptyPlaced (.array elements) (.array name t)) (hv : v ∈ elements) : v.EmptyPlaced t := by
  cases h with
  | full none => exact .full (everyObject_array.1 none v hv) t
  | array parts => exact parts v hv

theorem member {members : List (Text × Json)} {name f : Text} {fields : List (Text × Schema)}
    (h : EmptyPlaced (.object members) (.record name fields)) (hmem : (f, v) ∈ members)
    (found : fields.lookup f = some t) : v.EmptyPlaced t := by
  cases h with
  | full none => exact .full ((everyObject_object.1 none).2 (f, v) hmem) t
  | empty => cases hmem
  | object parts => exact parts f v t hmem found

theorem of_tagged {k : Kind} (h : EmptyPlaced (.object [(tag, w)]) (.primitive k)) :
    w.EmptyPlaced (.primitive k) := by
  cases h with
  | full none => exact inner none _
  | tagged part => exact part

theorem of_branch {branches : List Schema} (h : v.EmptyPlaced (.union branches))
    (filled : v ≠ .object []) (mem : b ∈ branches) (hv : v.Inhabits True b) : v.EmptyPlaced b := by
  cases h with
  | full none => exact .full none b
  | empty => exact absurd rfl filled
  | union _ branch => exact branch b mem hv

theorem of_wrapped {branches : List Schema} (h : EmptyPlaced (.object [(tag, w)]) (.union branches))
    (mem : b ∈ branches) (named : b.HasTag tag) (hw : w.Inhabits True b) : w.EmptyPlaced b := by
  cases h with
  | full none => exact inner none b
  | union _ _ wrapped => exact wrapped tag w b rfl mem named hw

end EmptyPlaced

/-- Empty objects inhabit what they do in any case where a record stands wherever they do. -/
theorem Inhabits.of_emptyPlaced {v : Json} {t : Schema} (h : v.Inhabits True t)
    (placed : v.EmptyPlaced t) : v.Inhabits False t := by
  induction h with
  | empty => exact placed.inhabits
  | null t => exact .null t
  | scalar fits => exact .scalar fits
  | array _ ih => exact .array fun v hv => ih v hv (placed.element hv)
  | object distinct known _ ih =>
    exact .object distinct known fun f v t hmem found => ih f v t hmem found (placed.member hmem found)
  | @branch v _ b mem fits ih =>
    by_cases none : v = .object []
    · subst none
      exact placed.inhabits
    · exact .branch mem (ih (placed.of_branch none mem fits))
  | wrapped mem named fits ih => exact .wrapped mem named (ih (placed.of_wrapped mem named fits))
  | tagged value named _ ih => exact .tagged value named (ih placed.of_tagged)

end Json

theorem Schema.hasTag_of_fits {k l : Kind} {tag : Text} (fits : k.fits l = true) (full : k ≠ .null)
    (named : (primitive k).HasTag tag) : (primitive l).HasTag tag := by
  have numeric : k = l ∨ k.isNumeric = true ∧ l.isNumeric = true := by
    revert fits full
    cases k <;> cases l <;> decide
  rcases numeric with rfl | ⟨hk, hl⟩
  · exact named
  · rcases named with rfl | ⟨_, tagged⟩
    · exact .inr ⟨hl, k, rfl, hk⟩
    · exact .inr ⟨hl, tagged⟩

theorem Json.Inhabits.mono {vacant : Prop} {v : Json} {s t : Schema} (h : v.Inhabits vacant s)
    (hle : s ≤ t) : v.Inhabits vacant t := by
  induction h generalizing t with
  | empty all => exact .empty all t
  | null => exact .null t
  | @scalar s k fits =>
    rcases primitive_le_iff.1 hle with rfl | ⟨l, rfl, hkl⟩
    · rw [Scalar.eq_null_of_fits fits]
      exact .null t
    · exact .scalar (Scalar.fits_of_fits fits hkl)
  | array _ ih =>
    obtain ⟨m, u, rfl, _, hsu⟩ := array_le_iff.1 hle
    exact .array fun v hv => ih v hv hsu
  | @object members name fs distinct known _ ih =>
    obtain ⟨gs, rfl, wider⟩ := record_le_iff.1 hle
    refine .object distinct (fun f v hmem => ?_) fun f v t hmem foundt => ?_
    · obtain ⟨s, found⟩ := known f v hmem
      obtain ⟨t, foundt, _⟩ := wider f s (mem_of_lookup found)
      exact ⟨t, foundt⟩
    · obtain ⟨s, found⟩ := known f v hmem
      obtain ⟨u, foundu, hsu⟩ := wider f s (mem_of_lookup found)
      cases foundt.symm.trans foundu
      exact ih f v s hmem found hsu
  | branch mem fits =>
    cases union_le_iff.1 hle
    exact .branch mem fits
  | wrapped mem named fits =>
    cases union_le_iff.1 hle
    exact .wrapped mem named fits
  | @tagged tag v k full named _ ih =>
    rcases primitive_le_iff.1 hle with rfl | ⟨l, rfl, hkl⟩
    · exact absurd rfl full
    · refine .tagged (fun heq => full ?_) (hasTag_of_fits hkl full named) (ih hle)
      exact Kind.eq_null_of_fits_null (heq ▸ hkl)

end SchemaInference
