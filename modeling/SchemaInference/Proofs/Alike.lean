import SchemaInference.Proofs.Collections
import SchemaInference.Proofs.Majorities

/-!
# Types of one make

Two types are alike if they differ in nulls and the width of numbers only: alike records
have the same name and the same fields.  Types that are alike leave a majority nothing to
decide, so that it is the least type above all of them.
-/

namespace SchemaInference

open Schema

namespace Schema

/-- Whether two types differ in nulls and the width of numbers only. -/
inductive Alike : Schema → Schema → Prop where
  | null_left (t : Schema) : Alike null t
  | null_right (s : Schema) : Alike s null
  | same (k : Kind) : Alike (.primitive k) (.primitive k)
  | numbers {k l : Kind} (left : k.isNumeric = true) (right : l.isNumeric = true) :
    Alike (.primitive k) (.primitive l)
  | arrays {n : Option Text} {s t : Schema} (items : Alike s t) : Alike (.array n s) (.array n t)
  | records {n : Text} {fs gs : List (Text × Schema)} (names : fieldNames fs = fieldNames gs)
    (fields : ∀ f s t, fs.lookup f = some s → gs.lookup f = some t → Alike s t) :
    Alike (.record n fs) (.record n gs)

variable {s t : Schema}

theorem alike_refl (free : t.UnionFree) : Alike t t := by
  induction t using induction_parts with
  | primitive k => exact .same k
  | array n items ih => exact .arrays (ih free.items)
  | record n fields ih =>
    apply Alike.records rfl
    intro f s t hs ht
    cases hs.symm.trans ht
    exact ih f s (mem_of_lookup hs) (free.field hs)
  | union branches => exact absurd free (not_unionFree_union branches)

theorem Alike.symm (h : Alike s t) : Alike t s := by
  induction h with
  | null_left t => exact .null_right t
  | null_right s => exact .null_left s
  | same k => exact .same k
  | numbers left right => exact .numbers right left
  | arrays _ ih => exact .arrays ih
  | records names _ ih => exact .records names.symm fun f t s ht hs => ih f s t hs ht

theorem Alike.mergeable (h : Alike s t) (hs : s.Canonical) (ht : t.Canonical) :
    Mergeable s t := by
  induction h with
  | null_left t => exact null_agree t
  | null_right s => exact agree_null s
  | same k => simp [Mergeable, Agree]
  | numbers left right => simp [Mergeable, Agree, left, right]
  | arrays _ ih =>
    simp only [Mergeable, Agree]
    exact ih (canonical_array.1 hs) (canonical_array.1 ht)
  | @records n fs gs names _ ih =>
    obtain ⟨ascf, partsf⟩ := canonical_record.1 hs
    obtain ⟨ascg, partsg⟩ := canonical_record.1 ht
    refine agree_record.2 ⟨rfl, ?_, (fieldsAgree_iff ascf).2 fun f s t hs ht => ?_⟩
    · apply Record.overlaps_iff.2
      cases fs with
      | nil => exact .inl rfl
      | cons entry rest =>
        have used : entry.1 ∈ fieldNames (entry :: rest) := mem_fieldNames.2 (by simp)
        refine .inr (.inr ⟨entry.1, by simp [Record.field?], ?_⟩)
        exact mem_fieldNames.1 (names ▸ used)
    · exact ih f s t hs ht (partsf f s hs) (partsg f t ht)

end Schema

/-- `c` is the least type above the types `ts`. -/
structure IsLeastAbove (ts : List Schema) (c : Schema) : Prop where
  canonical : c.Canonical
  upper : ∀ t ∈ ts, t ≤ c
  least : ∀ d, (∀ t ∈ ts, t ≤ d) → c ≤ d

theorem IsJoinOf.isLeastAbove {ts : List Schema} {c : Schema} (h : IsJoinOf ts c) :
    IsLeastAbove ts c := ⟨h.canonical, h.upper, h.least⟩

namespace IsLeastAbove
variable {ts : List Schema} {c d : Schema}

theorem unique (hc : IsLeastAbove ts c) (hd : IsLeastAbove ts d) : c = d :=
  le_antisymm hc.canonical hd.canonical (hc.least d hd.upper) (hd.least c hc.upper)

theorem congr {us : List Schema} (h : IsLeastAbove ts c) (same : ∀ t, t ∈ ts ↔ t ∈ us) :
    IsLeastAbove us c where
  canonical := h.canonical
  upper t ht := h.upper t ((same t).2 ht)
  least e he := h.least e fun t ht => he t ((same t).1 ht)

theorem append {us : List Schema} {e : Schema} (hc : IsLeastAbove ts c) (hd : IsLeastAbove us d)
    (step : IsLeastAbove [c, d] e) : IsLeastAbove (ts ++ us) e where
  canonical := step.canonical
  upper := by
    obtain ⟨hce, hde⟩ := forall_mem_pair.1 step.upper
    intro t ht
    rcases List.mem_append.1 ht with ht | ht
    · exact le_trans (hc.upper t ht) hce
    · exact le_trans (hd.upper t ht) hde
  least u hu := by
    obtain ⟨hts, hus⟩ := List.forall_mem_append.1 hu
    exact step.least u (forall_mem_pair.2 ⟨hc.least u hts, hd.least u hus⟩)

theorem of_not_null (h : IsLeastAbove (ts.filter (· ≠ null)) c) : IsLeastAbove ts c where
  canonical := h.canonical
  upper t ht := by
    by_cases heq : t = null
    · exact heq ▸ null_le c
    · exact h.upper t (List.mem_filter.2 ⟨ht, by simpa using heq⟩)
  least d hd := h.least d fun t ht => hd t (List.mem_filter.1 ht).1

theorem primitive {k : Kind} {kinds : List Kind} (mem : k ∈ kinds)
    (wide : ∀ l ∈ kinds, l.fits k = true) : IsLeastAbove (kinds.map .primitive) (.primitive k) where
  canonical := canonical_primitive k
  upper := by
    intro t ht
    obtain ⟨l, hl, rfl⟩ := List.mem_map.1 ht
    exact primitive_le_primitive.2 (wide l hl)
  least d hd := hd _ (List.mem_map_of_mem mem)

theorem array {items : List Schema} (h : IsLeastAbove items c) (full : items ≠ [])
    (n : Option Text) : IsLeastAbove (items.map (.array n)) (.array n c) where
  canonical := canonical_array.2 h.canonical
  upper := by
    intro t ht
    obtain ⟨s, hs, rfl⟩ := List.mem_map.1 ht
    exact array_le_array.2 ⟨.inl rfl, h.upper s hs⟩
  least d hd := by
    obtain ⟨s, hs⟩ := List.exists_mem_of_ne_nil items full
    obtain ⟨m, u, rfl, name, _⟩ := array_le_iff.1 (hd _ (List.mem_map_of_mem hs))
    refine array_le_array.2 ⟨name, h.least u fun t ht => ?_⟩
    exact (array_le_array.1 (hd _ (List.mem_map_of_mem ht))).2

theorem record {rs : List Record} {r : Record} (h : Record.Gathers rs r)
    (fields : ∀ f t, r.field? f = some t → IsLeastAbove (rs.filterMap (·.field? f)) t) :
    IsLeastAbove (rs.map Record.schema) r.schema where
  canonical :=
    Record.canonical_schema.2 ⟨h.ascending, fun f t found => (fields f t found).canonical⟩
  upper := h.upper fun f t found => (fields f t found).upper
  least := h.least fun f t found => (fields f t found).least

end IsLeastAbove

/-- Of numeric kinds the widest is one of them, and wider than all. -/
theorem Kind.foldl_widest_spec {k : Kind} {kinds : List Kind}
    (numeric : ∀ l ∈ k :: kinds, l.isNumeric = true) :
    kinds.foldl widest k ∈ k :: kinds ∧ ∀ l ∈ k :: kinds, l.fits (kinds.foldl widest k) = true := by
  induction kinds generalizing k with
  | nil => simp [fits_refl]
  | cons l rest ih =>
    have step : (k.widest l = k ∨ k.widest l = l) ∧ k.fits (k.widest l) = true ∧
        l.fits (k.widest l) = true := by
      have hk := numeric k (by simp)
      have hl := numeric l (by simp)
      revert hk hl
      cases k <;> cases l <;> decide
    obtain ⟨side, hk, hl⟩ := step
    have numeric : ∀ m ∈ k.widest l :: rest, m.isNumeric = true := by
      intro m hm
      rcases List.mem_cons.1 hm with rfl | hm
      · rcases side with h | h <;> rw [h] <;> exact numeric _ (by simp)
      · exact numeric m (by simp [hm])
    obtain ⟨mem, wide⟩ := ih numeric
    rw [List.foldl_cons]
    refine ⟨?_, ?_⟩
    · rcases List.mem_cons.1 mem with heq | mem
      · rw [heq]
        rcases side with h | h <;> simp [h]
      · simp [mem]
    · intro m hm
      have first := wide _ List.mem_cons_self
      rcases List.mem_cons.1 hm with rfl | hm
      · exact fits_trans hk first
      rcases List.mem_cons.1 hm with rfl | hm
      · exact fits_trans hl first
      · exact wide m (List.mem_cons_of_mem _ hm)

namespace Schema.Alike
variable {s t : Schema}

theorem family_eq (h : Alike s t) (hs : s ≠ null) (ht : t ≠ null) : s.family = t.family := by
  cases h with
  | null_left t => exact absurd rfl hs
  | null_right s => exact absurd rfl ht
  | @numbers k l left right =>
    revert left right
    cases k <;> cases l <;> decide
  | _ => rfl

theorem of_number {k : Kind} (h : Alike (.primitive k) t) (numeric : k.isNumeric = true)
    (full : t ≠ null) : ∃ l, t = .primitive l ∧ l.isNumeric = true := by
  cases h with
  | null_left => cases numeric
  | null_right => exact absurd rfl full
  | same => exact ⟨k, rfl, numeric⟩
  | @numbers _ l _ right => exact ⟨l, rfl, right⟩

theorem eq_of_not_number {k : Kind} (h : Alike (.primitive k) t) (other : ¬ k.isNumeric = true)
    (hk : primitive k ≠ null) (full : t ≠ null) : t = .primitive k := by
  cases h with
  | null_left => exact absurd rfl hk
  | null_right => exact absurd rfl full
  | same => rfl
  | numbers left => exact absurd left other

theorem of_array {n : Option Text} (h : Alike (.array n s) t) (full : t ≠ null) :
    ∃ u, t = .array n u ∧ Alike s u := by
  cases h with
  | null_right => exact absurd rfl full
  | @arrays _ _ u items => exact ⟨u, rfl, items⟩

theorem of_record {r : Record} (h : Alike r.schema t) (full : t ≠ null) :
    ∃ q : Record, t = q.schema ∧ q.name = r.name ∧ q.names = r.names ∧
      ∀ f u v, r.field? f = some u → q.field? f = some v → Alike u v := by
  generalize hr : r.schema = s at h
  cases h with
  | null_right => exact absurd rfl full
  | @records n fs gs names fields =>
    obtain rfl : r = ⟨n, fs⟩ := Record.schema_injective hr
    exact ⟨⟨n, gs⟩, rfl, rfl, names.symm, fields⟩
  | _ => cases hr

theorem of_records {q r : Record} (h : Alike r.schema q.schema) : q.name = r.name ∧
    q.names = r.names ∧ ∀ f u v, r.field? f = some u → q.field? f = some v → Alike u v := by
  obtain ⟨q', heq, parts⟩ := h.of_record nofun
  obtain rfl := Record.schema_injective heq
  exact parts

end Schema.Alike

section Majority
variable {ts rest : List Schema}

theorem familyMajority_of_alike (alike : ∀ s ∈ ts, ∀ t ∈ ts, Alike s t) :
    familyMajority ts = ts.filter (· ≠ null) := by
  apply majorityBy_eq_self
  intro s hs t ht
  obtain ⟨hs, nes⟩ := List.mem_filter.1 hs
  obtain ⟨ht, net⟩ := List.mem_filter.1 ht
  exact (alike s hs t ht).family_eq (by simpa using nes) (by simpa using net)

/-- Types that are alike are as good as the members of their most frequent family. -/
theorem isLeastAbove_of_members {ms : List Schema} {c : Schema}
    (alike : ∀ s ∈ ts, ∀ t ∈ ts, Alike s t) (members : familyMajority ts = ms)
    (h : (∀ t ∈ ms, t ∈ ts) → (∀ t ∈ ms, t ≠ null) → (∀ s ∈ ms, ∀ t ∈ ms, Alike s t) →
      IsLeastAbove ms c) : IsLeastAbove ts c := by
  apply IsLeastAbove.of_not_null
  rw [← familyMajority_of_alike alike, members]
  have mem : ∀ t ∈ ms, t ∈ ts ∧ t ≠ null := by
    intro t ht
    rw [← members, familyMajority_of_alike alike] at ht
    simpa using ht
  exact h (fun t ht => (mem t ht).1) (fun t ht => (mem t ht).2)
    fun s hs t ht => alike s (mem s hs).1 t (mem t ht).1

theorem alike_column {rs : List Record} (alike : ∀ q ∈ rs, ∀ r ∈ rs, Alike q.schema r.schema)
    (f : Text) : ∀ s ∈ rs.filterMap (·.field? f), ∀ t ∈ rs.filterMap (·.field? f), Alike s t := by
  intro s hs t ht
  obtain ⟨q, hq, founds⟩ := List.mem_filterMap.1 hs
  obtain ⟨r, hr, foundt⟩ := List.mem_filterMap.1 ht
  obtain ⟨_, _, fields⟩ := (alike q hq r hr).of_records
  exact fields f s t founds foundt

theorem shapeMajority_of_alike {rs : List Record}
    (alike : ∀ q ∈ rs, ∀ r ∈ rs, Alike q.schema r.schema) :
    shapeMajority (rs.map Record.schema) = rs := by
  unfold shapeMajority
  rw [filterMap_record?_schema]
  apply majorityBy_eq_self
  intro q hq r hr
  obtain ⟨_, names, _⟩ := (alike q hq r hr).of_records
  exact names.symm

section Members
variable {ms : List Schema} (alike : ∀ s ∈ ms, ∀ t ∈ ms, Alike s t) (full : ∀ t ∈ ms, t ≠ null)
include alike full

theorem exists_kinds_of_alike {k : Kind} (numeric : k.isNumeric = true) (h : .primitive k ∈ ms) :
    ∃ kinds : List Kind, ms = kinds.map .primitive ∧ ∀ l ∈ kinds, l.isNumeric = true := by
  have made (t : Schema) (ht : t ∈ ms) : ∃ l, t = .primitive l ∧ l.isNumeric = true :=
    (alike _ h t ht).of_number numeric (full t ht)
  obtain ⟨kinds, rfl⟩ := exists_eq_map fun t ht => (made t ht).imp fun _ h => h.1
  refine ⟨kinds, rfl, fun l hl => ?_⟩
  obtain ⟨m, heq, hm⟩ := made _ (List.mem_map_of_mem hl)
  cases heq
  exact hm

theorem exists_items_of_alike {n : Option Text} {s : Schema} (h : .array n s ∈ ms) :
    ∃ items : List Schema, ms = items.map (.array n) ∧ ∀ s ∈ items, ∀ t ∈ items, Alike s t := by
  obtain ⟨items, rfl⟩ := exists_eq_map fun t ht =>
    ((alike _ h t ht).of_array (full t ht)).imp fun _ h => h.1
  refine ⟨items, rfl, fun s hs t ht => ?_⟩
  obtain ⟨u, heq, items⟩ :=
    (alike _ (List.mem_map_of_mem hs) _ (List.mem_map_of_mem ht)).of_array nofun
  cases heq
  exact items

theorem exists_records_of_alike {r : Record} (h : r.schema ∈ ms) :
    ∃ rs : List Record, ms = rs.map Record.schema ∧
      ∀ p ∈ rs, ∀ q ∈ rs, Alike p.schema q.schema := by
  obtain ⟨rs, rfl⟩ := exists_eq_map fun t ht =>
    ((alike _ h t ht).of_record (full t ht)).imp fun _ h => h.1
  exact ⟨rs, rfl, fun p hp q hq => alike _ (List.mem_map_of_mem hp) _ (List.mem_map_of_mem hq)⟩

end Members

section Records
variable {r : Record} {rs : List Record} (canonical : ∀ q ∈ r :: rs, q.schema.Canonical)
  (alike : ∀ p ∈ r :: rs, ∀ q ∈ r :: rs, Alike p.schema q.schema)
include alike

theorem names_of_alike {q : Record} (hq : q ∈ r :: rs) :
    q.name = r.name ∧ ∀ f, (q.field? f).isSome ↔ f ∈ r.names := by
  obtain ⟨name, names, _⟩ := (alike r List.mem_cons_self q hq).of_records
  refine ⟨name, fun f => ?_⟩
  rw [← names]
  exact mem_fieldNames.symm

include canonical in
theorem gathers_of_alike (type : Text → Schema) : Record.Gathers (r :: rs) (r.retyped type) where
  full := by simp
  sorted q hq := (Record.canonical_schema.1 (canonical q hq)).1
  ascending := Record.ascending_retyped
  name q hq := (names_of_alike alike hq).1
  fields f := by
    rw [Record.isSome_field?_retyped]
    constructor
    · exact fun used => ⟨r, by simp, (names_of_alike alike (by simp)).2 f |>.2 used⟩
    · rintro ⟨q, hq, used⟩
      exact (names_of_alike alike hq).2 f |>.1 used

include canonical in
/-- The record whose fields are least above those of records that are alike. -/
theorem isLeastAbove_columns {type : Text → Schema}
    (columns : ∀ f ∈ r.names, IsLeastAbove ((r :: rs).filterMap (·.field? f)) (type f)) :
    IsLeastAbove ((r :: rs).map Record.schema) (r.retyped type).schema := by
  apply IsLeastAbove.record (gathers_of_alike canonical alike type)
  intro f t found
  obtain ⟨used, rfl⟩ := Record.field?_retyped_eq_some.1 found
  exact columns f used

end Records

/-- The majority of types that are alike is the least type above all of them. -/
theorem isLeastAbove_majority (canonical : ∀ t ∈ ts, t.Canonical)
    (alike : ∀ s ∈ ts, ∀ t ∈ ts, Alike s t) : IsLeastAbove ts (majority ts) := by
  -- the members of the first family are all of the types but null, so nothing is outvoted
  induction ts using majority.induct with
  | case1 ts none =>
    refine isLeastAbove_of_members alike none fun _ _ _ => ?_
    rw [majority_eq_null none]
    exact IsJoinOf.nil.isLeastAbove
  | case2 ts k rest members numeric =>
    refine isLeastAbove_of_members alike members fun _ full meet => ?_
    rw [majority_eq_primitive members, if_pos numeric]
    obtain ⟨kinds, whole, wide⟩ := exists_kinds_of_alike meet full numeric List.mem_cons_self
    cases kinds with
    | nil => cases whole
    | cons l kinds =>
      cases whole
      have kinds_eq : (kinds.map primitive).filterMap kind? = kinds := by
        simp [List.filterMap_map, Function.comp_def, kind?]
      obtain ⟨mem, above⟩ := Kind.foldl_widest_spec wide
      rw [kinds_eq]
      exact IsLeastAbove.primitive mem above
  | case3 ts k rest members other =>
    refine isLeastAbove_of_members alike members fun _ full meet => ?_
    rw [majority_eq_primitive members, if_neg other]
    refine ⟨canonical_primitive k, fun t ht => ?_, fun d hd => hd _ List.mem_cons_self⟩
    rw [(meet _ List.mem_cons_self t ht).eq_of_not_number other (full _ List.mem_cons_self)
      (full t ht)]
    exact le_refl (canonical_primitive k)
  | case4 ts n items rest members ih =>
    refine isLeastAbove_of_members alike members fun mem full meet => ?_
    rw [majority_eq_array members]
    obtain ⟨column, whole, meet⟩ := exists_items_of_alike meet full List.mem_cons_self
    have column_eq : (column.map (.array n)).filterMap items? = column := by
      simp [List.filterMap_map, Function.comp_def, items?]
    rw [whole, column_eq] at ih ⊢
    refine IsLeastAbove.array (ih (fun s hs => ?_) meet) (by rintro rfl; cases whole) n
    exact canonical_array.1 (canonical _ (mem _ (whole ▸ List.mem_map_of_mem hs)))
  | case5 ts n fields rest members none =>
    refine isLeastAbove_of_members alike members fun _ full meet => ?_
    obtain ⟨rs, whole, meet⟩ :=
      exists_records_of_alike (r := ⟨n, fields⟩) meet full List.mem_cons_self
    rw [whole, shapeMajority_of_alike meet] at none
    cases none
    cases whole
  | case6 ts n fields rest members r others group ih =>
    refine isLeastAbove_of_members alike members fun mem full meet => ?_
    rw [majority_eq_record members group]
    obtain ⟨rs, whole, meet⟩ :=
      exists_records_of_alike (r := ⟨n, fields⟩) meet full List.mem_cons_self
    -- all records have one set of names, so the group holds all of them
    rw [whole, shapeMajority_of_alike meet] at group
    rw [whole] at mem ⊢
    subst group
    have parts : ∀ q ∈ r :: others, q.schema.Canonical := fun q hq =>
      canonical _ (mem _ (List.mem_map_of_mem hq))
    refine isLeastAbove_columns parts meet fun f _ => ih f (fun t ht => ?_) (alike_column meet f)
    obtain ⟨q, hq, found⟩ := List.mem_filterMap.1 ht
    exact (Record.canonical_schema.1 (parts q hq)).2 f t found
  | case7 ts branches rest members =>
    refine isLeastAbove_of_members alike members fun _ _ meet => ?_
    cases meet _ List.mem_cons_self _ List.mem_cons_self

end Majority

end SchemaInference
