import SchemaInference.Join
import SchemaInference.Proofs.Resolution
import SchemaInference.Proofs.Widths

/-!
# Schemas of one shape

Schemas without unions that differ in the width of numbers only are alike, so that they
have a join in either mode.  The least schema above them is the widest of them.
-/

namespace SchemaInference

open Schema

namespace Schema

theorem fits_of_le {s t : Schema} (hs : s.Canonical) (hle : s ≤ t) {path : List Step} {k l : Kind}
    (hk : kindAt? path s = some k) (hl : kindAt? path t = some l) : k.fits l = true := by
  induction path generalizing s t with
  | nil =>
    cases s with
    | primitive k' =>
      cases hk
      rcases primitive_le_iff.1 hle with rfl | ⟨l', rfl, fits⟩
      · exact Kind.null_fits l
      · cases hl
        exact fits
    | _ => cases hk
  | cons step path ih =>
    obtain ⟨u, hu, restu⟩ := Option.bind_eq_some_iff.1 hk
    obtain ⟨v, hv, restv⟩ := Option.bind_eq_some_iff.1 hl
    cases s with
    | primitive k' => cases step <;> cases hu
    | array n items =>
      obtain ⟨m, others, rfl, _, inner⟩ := array_le_iff.1 hle
      cases step with
      | items =>
        cases hu
        cases hv
        exact ih (canonical_array.1 hs) inner restu restv
      | _ => cases hu
    | record n fs =>
      obtain ⟨asc, parts⟩ := canonical_record.1 hs
      cases step with
      | field f =>
        obtain ⟨gs, rfl, fields⟩ := record_le_iff.1 hle
        obtain ⟨w, found, inner⟩ := fields f u (mem_of_lookup hu)
        cases hv.symm.trans found
        exact ih (parts f u hu) inner restu restv
      | _ => cases hu
    | union bs =>
      -- nothing but the union itself is above a union
      cases union_le_iff.1 hle
      cases hu.symm.trans hv
      cases restu.symm.trans restv
      exact Kind.fits_refl k

theorem alike_of_withoutWidth_eq {s t : Schema} (hs : s.Canonical) (ht : t.Canonical)
    (free : s.UnionFree) (same : s.withoutWidth = t.withoutWidth) : Alike s t := by
  induction s using induction_parts generalizing t with
  | primitive k =>
    cases sameForm same with
    | @primitives _ l kinds =>
      have split : k = l ∨ k.isNumeric = true ∧ l.isNumeric = true := by
        revert kinds
        cases k <;> cases l <;> decide
      rcases split with rfl | ⟨left, right⟩
      · exact .same k
      · exact .numbers left right
  | array n s ih =>
    cases sameForm same with
    | arrays _ items =>
      exact .arrays (ih (canonical_array.1 hs) (canonical_array.1 ht) free.items items)
  | record n fs ih =>
    cases sameForm same with
    | records _ fields =>
      obtain ⟨ascf, partsf⟩ := canonical_record.1 hs
      obtain ⟨ascg, partsg⟩ := canonical_record.1 ht
      refine .records ?_ fun f u v hu hv => ?_
      · rw [fieldNames_eq_of_ascending ascf, fieldNames_eq_of_ascending ascg]
        simpa [fieldsWithoutWidth_eq_map, Function.comp_def] using
          congrArg (List.map Prod.fst) fields
      · exact ih f u (mem_of_lookup hu) (partsf f u hu) (partsg f v hv) (free.field hu)
          (withoutWidth_of_lookup fields hu hv)
  | union bs => exact absurd free (not_unionFree_union bs)

theorem exists_widest_kind {kinds : List Kind} (full : kinds ≠ [])
    (same : ∀ k ∈ kinds, ∀ l ∈ kinds, k.withoutWidth = l.withoutWidth) :
    ∃ m ∈ kinds, ∀ l ∈ kinds, l.fits m = true := by
  induction kinds with
  | nil => exact absurd rfl full
  | cons k rest ih =>
    by_cases none : rest = []
    · subst none
      exact ⟨k, List.mem_cons_self, by simp [Kind.fits_refl]⟩
    obtain ⟨m, hm, wide⟩ := ih none fun k hk l hl =>
      same k (List.mem_cons_of_mem _ hk) l (List.mem_cons_of_mem _ hl)
    have either : k.fits m = true ∨ m.fits k = true := by
      have := same k List.mem_cons_self m (List.mem_cons_of_mem _ hm)
      revert this
      cases k <;> cases m <;> decide
    rcases either with fits | fits
    · exact ⟨m, List.mem_cons_of_mem _ hm, List.forall_mem_cons.2 ⟨fits, wide⟩⟩
    · refine ⟨k, List.mem_cons_self, List.forall_mem_cons.2 ⟨Kind.fits_refl k, fun l hl => ?_⟩⟩
      exact Kind.fits_trans (wide l hl) fits

/-- Whether canonical schemas without unions differ from `s` in width only. -/
structure SameShape (ts : List Schema) (s : Schema) : Prop where
  canonical : ∀ t ∈ ts, t.Canonical
  free : ∀ t ∈ ts, t.UnionFree
  same : ∀ t ∈ ts, t.withoutWidth = s.withoutWidth

/-- Whether `c` is of the shape of `s` and takes all its kinds from the schemas `ts`. -/
structure TakesKinds (ts : List Schema) (s c : Schema) : Prop where
  same : c.withoutWidth = s.withoutWidth
  mem : ∀ path k, kindAt? path c = some k → ∃ t ∈ ts, kindAt? path t = some k

namespace SameShape
variable {ts : List Schema} {s c : Schema}

theorem alike (h : SameShape ts s) : ∀ t ∈ ts, ∀ u ∈ ts, Alike t u := by
  intro t ht u hu
  refine alike_of_withoutWidth_eq (h.canonical t ht) (h.canonical u hu) (h.free t ht) ?_
  rw [h.same t ht, h.same u hu]

theorem ne_null (h : SameShape ts s) (full : s ≠ null) : ∀ t ∈ ts, t ≠ null := by
  rintro t ht rfl
  exact full (eq_null_of_withoutWidth_eq (h.same null ht))

theorem takesKinds_primitive {k : Kind} (h : SameShape ts (.primitive k)) (mem : .primitive k ∈ ts)
    (least : IsLeastAbove ts c) : TakesKinds ts (.primitive k) c := by
  have made (t : Schema) (ht : t ∈ ts) : ∃ l, t = .primitive l := by
    cases sameForm (h.same t ht) with
    | @primitives l => exact ⟨l, rfl⟩
  obtain ⟨kinds, rfl⟩ := exists_eq_map made
  have full : kinds ≠ [] := by
    rintro rfl
    cases mem
  obtain ⟨m, hm, wide⟩ := exists_widest_kind full fun k hk l hl => by
    have hk := h.same _ (List.mem_map_of_mem hk)
    have hl := h.same _ (List.mem_map_of_mem hl)
    simpa [withoutWidth] using hk.trans hl.symm
  rw [least.unique (.primitive hm wide)]
  have hm : Schema.primitive m ∈ kinds.map .primitive := List.mem_map_of_mem hm
  exact ⟨h.same _ hm, fun path k found => ⟨_, hm, found⟩⟩

theorem items {n : Option Text} {items : List Schema}
    (h : SameShape (items.map (.array n)) (.array n s)) : SameShape items s where
  canonical t ht := canonical_array.1 (h.canonical _ (List.mem_map_of_mem ht))
  free t ht := (h.free _ (List.mem_map_of_mem ht)).items
  same t ht := by
    have := h.same _ (List.mem_map_of_mem ht)
    simpa [withoutWidth] using this

theorem takesKinds_array {n : Option Text} {items : List Schema} {u : Schema}
    (least : IsLeastAbove items u) (full : items ≠ [])
    (above : IsLeastAbove (items.map (.array n)) c) (inner : TakesKinds items s u) :
    TakesKinds (items.map (.array n)) (.array n s) c := by
  rw [above.unique (least.array full n)]
  refine ⟨by rw [withoutWidth, withoutWidth, inner.same], fun path k found => ?_⟩
  rcases path with _ | ⟨step, path⟩
  · cases found
  cases step with
  | items =>
    obtain ⟨t, ht, foundt⟩ := inner.mem path k found
    exact ⟨.array n t, List.mem_map_of_mem ht, foundt⟩
  | _ => cases found

section Records
variable {r : Record} {rs : List Record}

theorem column (h : SameShape (rs.map Record.schema) r.schema) {f : Text}
    (found : r.fields.lookup f = some s) : SameShape (rs.filterMap (·.field? f)) s where
  canonical t ht := by
    obtain ⟨q, hq, foundt⟩ := List.mem_filterMap.1 ht
    exact (canonical_record.1 (h.canonical _ (List.mem_map_of_mem hq))).2 f t foundt
  free t ht := by
    obtain ⟨q, hq, foundt⟩ := List.mem_filterMap.1 ht
    exact (h.free _ (List.mem_map_of_mem hq)).field foundt
  same t ht := by
    obtain ⟨q, hq, foundt⟩ := List.mem_filterMap.1 ht
    have foundt : q.fields.lookup f = some t := foundt
    have same := h.same _ (List.mem_map_of_mem hq)
    simp only [Record.schema, withoutWidth, record.injEq] at same
    exact withoutWidth_of_lookup same.2 foundt found

/-- A record with types that take the kinds of the columns takes the kinds of the records. -/
theorem takesKinds_columns {type : Text → Schema} (asc : Ascending r.fields)
    (columns : ∀ f s, r.fields.lookup f = some s →
      TakesKinds (rs.filterMap (·.field? f)) s (type f)) :
    TakesKinds (rs.map Record.schema) r.schema (r.retyped type).schema := by
  have names : r.names = r.fields.map Prod.fst := fieldNames_eq_of_ascending asc
  constructor
  · rw [Record.retyped, Record.schema, Record.schema, withoutWidth, withoutWidth,
      fieldsWithoutWidth_eq_map, fieldsWithoutWidth_eq_map, names, List.map_map, List.map_map]
    refine congrArg (record r.name) (List.map_congr_left fun column hf => ?_)
    have found := lookup_of_mem_of_nodup asc.nodup hf
    exact congrArg (Prod.mk column.1) (columns column.1 column.2 found).same
  · intro path k found
    rcases path with _ | ⟨step, path⟩
    · cases found
    cases step with
    | field f =>
      obtain ⟨t, ht, foundt⟩ := Option.bind_eq_some_iff.1 found
      obtain ⟨used, rfl⟩ := Record.field?_retyped_eq_some.1 ht
      obtain ⟨s, hs⟩ := Option.isSome_iff_exists.1 (mem_fieldNames.1 used)
      obtain ⟨u, hu, foundu⟩ := (columns f s hs).mem path k foundt
      obtain ⟨q, hq, foundq⟩ := List.mem_filterMap.1 hu
      exact ⟨q.schema, List.mem_map_of_mem hq, Option.bind_eq_some_iff.2 ⟨u, foundq, foundu⟩⟩
    | _ => cases found

end Records

/-- The least schema above schemas that differ in width only takes its kinds from them. -/
theorem takesKinds (h : SameShape ts s) (mem : s ∈ ts) (least : IsLeastAbove ts c) :
    TakesKinds ts s c := by
  induction s using induction_parts generalizing ts c with
  | primitive k => exact h.takesKinds_primitive mem least
  | array n s ih =>
    obtain ⟨items, rfl, alike⟩ := exists_items_of_alike h.alike (h.ne_null nofun) mem
    have mem : s ∈ items := by simpa using mem
    have inner := isLeastAbove_majority h.items.canonical alike
    exact takesKinds_array inner (List.ne_nil_of_mem mem) least (ih h.items mem inner)
  | record n fs ih =>
    obtain ⟨rs, rfl, alike⟩ := exists_records_of_alike (r := ⟨n, fs⟩) h.alike (h.ne_null nofun) mem
    obtain ⟨r, hr, heq⟩ := List.mem_map.1 mem
    obtain rfl : r = ⟨n, fs⟩ := Record.schema_injective heq
    -- the record of the majorities of all columns is least above the records, so it is `c`
    obtain ⟨q, others, rfl⟩ := List.exists_cons_of_ne_nil (List.ne_nil_of_mem hr)
    obtain ⟨name, names, _⟩ := (alike _ hr q List.mem_cons_self).of_records
    have asc : Ascending fs := (canonical_record.1 (h.canonical _ mem)).1
    have column (f : Text) (s : Schema) (found : fs.lookup f = some s) :
        IsLeastAbove ((q :: others).filterMap (·.field? f))
          (majority ((q :: others).filterMap (·.field? f))) :=
      isLeastAbove_majority (h.column (r := ⟨n, fs⟩) found).canonical (alike_column alike f)
    have above := isLeastAbove_columns (fun p hp => h.canonical _ (List.mem_map_of_mem hp)) alike
      fun f hf => by
        rw [names] at hf
        obtain ⟨s, found⟩ := Option.isSome_iff_exists.1 (mem_fieldNames.1 hf)
        exact column f s found
    rw [least.unique above, Record.retyped_congr name names fun _ _ => rfl]
    exact takesKinds_columns asc fun f s found => ih f s (mem_of_lookup found) (h.column found)
      (List.mem_filterMap.2 ⟨_, hr, found⟩) (column f s found)
  | union bs => exact absurd (h.free _ mem) (not_unionFree_union bs)

theorem isWidest (h : SameShape ts s) (mem : s ∈ ts) (least : IsLeastAbove ts c) :
    IsWidest ts c := by
  have kinds := h.takesKinds mem least
  refine ⟨fun t ht => ?_, kinds.mem, fun path k hk t ht l hl => ?_⟩
  · rw [sameUpToWidth_iff (h.canonical t ht) least.canonical, h.same t ht, kinds.same]
  · exact fits_of_le (h.canonical t ht) (least.upper t ht) hl hk

end SameShape

end Schema

namespace Lenient

theorem join_self (s : Schema) : join s s = .ok s := by
  unfold join
  rw [if_pos rfl]

theorem exists_join_primitive {k l : Kind} (same : k.withoutWidth = l.withoutWidth) :
    ∃ m, join (.primitive k) (.primitive l) = .ok (.primitive m) ∧ m ∈ [k, l] ∧
      ∀ x ∈ [k, l], x.fits m = true := by
  by_cases heq : k = l
  · subst heq
    exact ⟨k, join_self _, by simp, by simp [Kind.fits_refl]⟩
  have kinds : k ≠ .null ∧ l ≠ .null ∧ ∃ m, k.join? .lenient l = some m ∧ m ∈ [k, l] ∧
      ∀ x ∈ [k, l], x.fits m = true := by
    revert same heq
    cases k <;> cases l <;> decide
  obtain ⟨hk, hl, m, joined, side, wide⟩ := kinds
  refine ⟨m, ?_, side, wide⟩
  simp [join, heq, hk, hl, isCompound, joined]

/-- Lenient joining of two schemas that differ in width only finds their least upper bound. -/
theorem exists_join {s t : Schema} (h : SameShape [s, t] s) :
    ∃ c, join s t = .ok c ∧ IsLeastAbove [s, t] c := by
  have same := (h.same t (by simp)).symm
  induction s using induction_parts generalizing t with
  | primitive k =>
    cases sameForm same with
    | primitives kinds =>
      obtain ⟨m, joined, mem, wide⟩ := exists_join_primitive kinds
      exact ⟨.primitive m, joined, IsLeastAbove.primitive mem wide⟩
  | array n s ih =>
    cases sameForm same with
    | @arrays _ _ t items =>
      have both : SameShape ([s, t].map (.array n)) (.array n s) := h
      obtain ⟨c, joined, least⟩ := ih both.items items
      refine ⟨.array n c, ?_, least.array (by simp) n⟩
      by_cases heq : s = t
      · subst heq
        cases (join_self s).symm.trans joined
        exact join_self _
      · simp [join, heq, isCompound, joined, Except.map]
  | record n fs =>
    cases sameForm same with
    | @records _ _ gs fields =>
      by_cases heq : record n fs = record n gs
      · rw [← heq] at h ⊢
        have single := (IsJoinOf.single (h.canonical (.record n fs) (by simp))).isLeastAbove
        exact ⟨.record n fs, join_self _, single.congr (by simp)⟩
      -- lenient joining leaves two records to the majority
      · refine ⟨_, ?_, isLeastAbove_majority h.canonical h.alike⟩
        rw [join.eq_def, if_neg heq]
        exact joinAll_eq _
  | union bs => exact absurd (h.free _ (by simp)) (not_unionFree_union bs)

end Lenient

/-- In either mode two schemas that differ in width only have a join. -/
theorem exists_join_of_sameShape (mode : Mode) {s t : Schema} (h : SameShape [s, t] s) :
    ∃ c, join mode s t = .ok c ∧ IsLeastAbove [s, t] c := by
  cases mode with
  | strict =>
    have hs := h.canonical s (by simp)
    have ht := h.canonical t (by simp)
    have agree := (h.alike s (by simp) t (by simp)).mergeable hs ht
    have joins := Strict.joins_join (max s.height t.height + 1)
    obtain ⟨c, joined⟩ := joins.exists_ok hs ht (by omega) (by omega) agree
    exact ⟨c, joined, (joins.isJoinOf hs ht (by omega) (by omega) (agree.mono False.elim)
      joined).isLeastAbove⟩
  | lenient => exact Lenient.exists_join h

end SchemaInference
