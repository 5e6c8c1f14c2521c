import SchemaInference.Join.Majority
import SchemaInference.Proofs.Clusters
import SchemaInference.Proofs.JoinCases
import SchemaInference.Proofs.Naming

/-!
# Strict joins are least upper bounds

`IsJoinOf ts c` says that `c` is the least type above the types `ts`.  A join of two
types that agree is such a bound, and so is the join of a collection of types that agree
pairwise: what agrees with two types agrees with their join, so no step of joining a
collection leaves the types that agree.
-/

namespace SchemaInference

open Schema

theorem forall_mem_pair {α : Type} {p : α → Prop} {a b : α} :
    (∀ x ∈ [a, b], p x) ↔ p a ∧ p b := by
  simp

/--
`c` is the least type above the types `ts`.  It agrees with whatever all of them agree
with, and it has no unions and follows the naming if they do.
-/
structure IsJoinOf (ts : List Schema) (c : Schema) : Prop where
  canonical : c.Canonical
  unionFree : (∀ t ∈ ts, t.UnionFree) → c.UnionFree
  naming : ∀ name, (∀ t ∈ ts, t.FollowsNaming name) → c.FollowsNaming name
  height_le : ∀ n, (∀ t ∈ ts, t.height ≤ n) → c.height ≤ n
  upper : ∀ t ∈ ts, t ≤ c
  least : ∀ d, (∀ t ∈ ts, t ≤ d) → c ≤ d
  agree : ∀ lax u, u.Canonical → (∀ t ∈ ts, Agree lax t u) → Agree lax c u

namespace IsJoinOf
variable {ts us : List Schema} {c c' d t : Schema}

theorem nil : IsJoinOf [] null where
  canonical := canonical_primitive _
  unionFree _ := unionFree_primitive _
  naming _ _ := followsNaming_primitive _
  height_le n _ := by simp [Schema.height]
  upper := by simp
  least d _ := null_le d
  agree _ u _ _ := null_agree u

theorem single (h : t.Canonical) : IsJoinOf [t] t where
  canonical := h
  unionFree hu := hu t List.mem_cons_self
  naming _ hn := hn t List.mem_cons_self
  height_le _ hn := hn t List.mem_cons_self
  upper s hs := by cases List.mem_singleton.1 hs; exact le_refl h
  least _ hd := hd t List.mem_cons_self
  agree _ _ _ hu := hu t List.mem_cons_self

theorem congr (h : IsJoinOf ts c) (same : ∀ t, t ∈ ts ↔ t ∈ us) : IsJoinOf us c where
  canonical := h.canonical
  unionFree hu := h.unionFree fun t ht => hu t ((same t).1 ht)
  naming n hn := h.naming n fun t ht => hn t ((same t).1 ht)
  height_le n hn := h.height_le n fun t ht => hn t ((same t).1 ht)
  upper t ht := h.upper t ((same t).2 ht)
  least d hd := h.least d fun t ht => hd t ((same t).1 ht)
  agree lax u hu hall := h.agree lax u hu fun t ht => hall t ((same t).1 ht)

/-- Nulls do not matter for a join. -/
theorem of_forall_mem (h : IsJoinOf ts c) (sub : ∀ t ∈ ts, t ∈ us)
    (rest : ∀ t ∈ us, t ∈ ts ∨ t = null) : IsJoinOf us c where
  canonical := h.canonical
  unionFree hu := h.unionFree fun t ht => hu t (sub t ht)
  naming n hn := h.naming n fun t ht => hn t (sub t ht)
  height_le n hn := h.height_le n fun t ht => hn t (sub t ht)
  upper t ht := by
    rcases rest t ht with ht | rfl
    · exact h.upper t ht
    · exact null_le c
  least d hd := h.least d fun t ht => hd t (sub t ht)
  agree lax u hu hall := h.agree lax u hu fun t ht => hall t (sub t ht)

theorem append (h : IsJoinOf ts c) (h' : IsJoinOf us c') (step : IsJoinOf [c, c'] d) :
    IsJoinOf (ts ++ us) d where
  canonical := step.canonical
  unionFree hu := by
    obtain ⟨hts, hus⟩ := List.forall_mem_append.1 hu
    exact step.unionFree (forall_mem_pair.2 ⟨h.unionFree hts, h'.unionFree hus⟩)
  naming n hn := by
    obtain ⟨hts, hus⟩ := List.forall_mem_append.1 hn
    exact step.naming n (forall_mem_pair.2 ⟨h.naming n hts, h'.naming n hus⟩)
  height_le n hn := by
    obtain ⟨hts, hus⟩ := List.forall_mem_append.1 hn
    exact step.height_le n (forall_mem_pair.2 ⟨h.height_le n hts, h'.height_le n hus⟩)
  upper := by
    obtain ⟨hcd, hcd'⟩ := forall_mem_pair.1 step.upper
    intro t ht
    rcases List.mem_append.1 ht with ht | ht
    · exact le_trans (h.upper t ht) hcd
    · exact le_trans (h'.upper t ht) hcd'
  least e he := by
    obtain ⟨hts, hus⟩ := List.forall_mem_append.1 he
    exact step.least e (forall_mem_pair.2 ⟨h.least e hts, h'.least e hus⟩)
  agree lax u hu hall := by
    obtain ⟨hts, hus⟩ := List.forall_mem_append.1 hall
    apply step.agree lax u hu
    exact forall_mem_pair.2 ⟨h.agree lax u hu hts, h'.agree lax u hu hus⟩

theorem primitive {k l m : Kind} (h : k.join? .strict l = some m) :
    IsJoinOf [.primitive k, .primitive l] (.primitive m) := by
  have side := Kind.join?_eq_left_or_right h
  constructor
  case canonical => exact canonical_primitive m
  case unionFree => exact fun _ => unionFree_primitive m
  case naming => exact fun _ _ => followsNaming_primitive m
  case height_le => simp [Schema.height]
  case upper =>
    have fits := Kind.fits_of_join? h
    simpa [primitive_le_primitive] using fits
  -- the join is one of the two, so what is above or agrees with both does so with it
  case least =>
    intro d hd
    rcases side with rfl | rfl
    · exact hd _ (by simp)
    · exact hd _ (by simp)
  case agree =>
    intro lax u _ hall
    rcases side with rfl | rfl
    · exact hall _ (by simp)
    · exact hall _ (by simp)

/-- Arrays join by their items, and keep a name that they share. -/
theorem array {s t u : Schema} (h : IsJoinOf [s, t] u) (n m : Option Text) :
    IsJoinOf [.array n s, .array m t] (.array (if n = m then n else none) u) := by
  constructor
  case canonical => exact canonical_array.2 h.canonical
  case unionFree =>
    intro hu
    simp only [forall_mem_pair, unionFree_array] at hu ⊢
    exact h.unionFree (forall_mem_pair.2 hu)
  case naming =>
    intro k hk
    simp only [forall_mem_pair, followsNaming_array] at hk ⊢
    obtain ⟨⟨rfl, hs⟩, rfl, ht⟩ := hk
    exact ⟨rfl, h.naming k (forall_mem_pair.2 ⟨hs, ht⟩)⟩
  case height_le =>
    intro k hk
    simp only [forall_mem_pair, Schema.height] at hk ⊢
    have := h.height_le (k - 1) (forall_mem_pair.2 ⟨by omega, by omega⟩)
    omega
  case upper =>
    obtain ⟨hsu, htu⟩ := forall_mem_pair.1 h.upper
    refine forall_mem_pair.2 ⟨array_le_array.2 ⟨?_, hsu⟩, array_le_array.2 ⟨?_, htu⟩⟩
    · split <;> simp
    · split <;> simp_all
  case least =>
    intro d hd
    obtain ⟨hnd, hmd⟩ := forall_mem_pair.1 hd
    obtain ⟨o, v, rfl, hno, hsv⟩ := array_le_iff.1 hnd
    obtain ⟨hmo, htv⟩ := array_le_array.1 hmd
    refine array_le_array.2 ⟨?_, h.least v (forall_mem_pair.2 ⟨hsv, htv⟩)⟩
    split <;> grind
  case agree =>
    intro lax v hv hall
    obtain ⟨hs, ht⟩ := forall_mem_pair.1 hall
    cases v with
    | array o v =>
      simp only [Agree] at hs ht ⊢
      exact h.agree lax v (canonical_array.1 hv) (forall_mem_pair.2 ⟨hs, ht⟩)
    | primitive l => simpa [Agree] using hs
    | _ => simp [Agree] at hs

theorem unique (hc : IsJoinOf ts c) (hd : IsJoinOf ts d) : c = d :=
  le_antisymm hc.canonical hd.canonical (hc.least d hd.upper) (hd.least c hc.upper)

end IsJoinOf

/-- A join that finds least upper bounds for the types lower than `level` that agree. -/
structure Joins (j : Join) (level : Nat) : Prop where
  isJoinOf : ∀ {a b c : Schema}, a.Canonical → b.Canonical → a.height < level →
    b.height < level → Agree True a b → j a b = .ok c → IsJoinOf [a, b] c
  exists_ok : ∀ {a b : Schema}, a.Canonical → b.Canonical → a.height < level →
    b.height < level → Mergeable a b → ∃ c, j a b = .ok c

namespace Joins
variable {j : Join} {level : Nat}

/-- The join of two primitives or arrays is their least upper bound. -/
theorem isJoinOf_plain (hj : Joins j level) {a b c : Schema} (ha : a.Canonical)
    (hb : b.Canonical) (la : a.height ≤ level) (lb : b.height ≤ level) (h : Agree True a b)
    (joined : joinPlain .strict j a b = .ok c) : IsJoinOf [a, b] c := by
  cases joinPlain_eq_ok.1 joined with
  | primitives kinds => exact .primitive kinds
  | arrays n m items =>
    simp only [Schema.height] at la lb
    have bound := hj.isJoinOf (canonical_array.1 ha) (canonical_array.1 hb)
      (by omega) (by omega) (by simpa [Agree] using h) items
    exact bound.array n m

theorem exists_plain (hj : Joins j level) {a b : Schema} (ha : a.Canonical) (hb : b.Canonical)
    (la : a.height ≤ level) (lb : b.height ≤ level) (pa : a.isCompound = false)
    (na : a ≠ null) (nb : b ≠ null) (h : Mergeable a b) :
    ∃ c, joinPlain .strict j a b = .ok c := by
  cases a with
  | primitive k =>
    cases b with
    | primitive l =>
      have fit : k = l ∨ (k.isNumeric = true ∧ l.isNumeric = true) := by
        simp_all [Mergeable, Agree]
      obtain ⟨m, found⟩ := Kind.exists_join? fit
      exact ⟨.primitive m, joinPlain_eq_ok.2 (.primitives found)⟩
    | _ => simp_all [Mergeable, Agree]
  | array n s =>
    cases b with
    | array m t =>
      simp only [Schema.height] at la lb
      obtain ⟨u, inner⟩ := hj.exists_ok (canonical_array.1 ha) (canonical_array.1 hb)
        (by omega) (by omega) (by simpa [Mergeable, Agree] using h)
      exact ⟨_, joinPlain_eq_ok.2 (.arrays n m inner)⟩
    | _ => simp_all [Mergeable, Agree]
  | _ => cases pa

end Joins

namespace Record

theorem canonical_schema {r : Record} : r.schema.Canonical ↔
    Ascending r.fields ∧ ∀ f t, r.field? f = some t → t.Canonical :=
  canonical_record

theorem height_field?_lt {r : Record} {f : Text} {t : Schema} (h : r.field? f = some t) :
    t.height < r.schema.height := by
  have := Schema.height_lookup_le h
  rw [schema, Schema.height]
  omega

theorem height_schema_le {r : Record} {n : Nat} (asc : Ascending r.fields)
    (h : ∀ f t, r.field? f = some t → t.height ≤ n) : r.schema.height ≤ n + 1 := by
  have bound : ∀ fields : List (Text × Schema), (∀ f t, (f, t) ∈ fields → t.height ≤ n) →
      Schema.fieldsHeight fields ≤ n := by
    intro fields
    induction fields with
    | nil => simp [Schema.fieldsHeight]
    | cons entry rest ih =>
      obtain ⟨f, t⟩ := entry
      intro h
      have ht := h f t List.mem_cons_self
      have hrest := ih fun f t hmem => h f t (List.mem_cons_of_mem _ hmem)
      simp only [Schema.fieldsHeight]
      omega
  rw [schema, Schema.height]
  exact Nat.succ_le_succ (bound r.fields fun f t hmem => h f t (asc.lookup_eq_some_iff.2 hmem))

theorem schema_le_schema {a b : Record} (asc : Ascending a.fields) : a.schema ≤ b.schema ↔
    a.name = b.name ∧ ∀ f s, a.field? f = some s → ∃ t, b.field? f = some t ∧ s ≤ t :=
  record_le_record asc

theorem schema_le_iff {a : Record} {d : Schema} (asc : Ascending a.fields) : a.schema ≤ d ↔
    ∃ b : Record, d = b.schema ∧ a.name = b.name ∧
      ∀ f s, a.field? f = some s → ∃ t, b.field? f = some t ∧ s ≤ t := by
  constructor
  · intro h
    obtain ⟨gs, rfl, _⟩ := record_le_iff.1 h
    exact ⟨⟨a.name, gs⟩, rfl, (schema_le_schema asc).1 h⟩
  · rintro ⟨b, rfl, h⟩
    exact (schema_le_schema asc).2 h

end Record

/-- `c` has the name of the records `rs`, and the fields that one of them has. -/
structure Record.Gathers (rs : List Record) (c : Record) : Prop where
  full : rs ≠ []
  sorted : ∀ r ∈ rs, Ascending r.fields
  ascending : Ascending c.fields
  name : ∀ r ∈ rs, r.name = c.name
  fields : ∀ f, (c.field? f).isSome ↔ ∃ r ∈ rs, (r.field? f).isSome

namespace Record.Gathers
variable {rs : List Record} {c r : Record} (h : Gathers rs c)
include h

theorem exists_field (hr : r ∈ rs) {f : Text} {t : Schema} (found : r.field? f = some t) :
    ∃ u, c.field? f = some u ∧ t ∈ rs.filterMap (·.field? f) := by
  have used : (c.field? f).isSome := (h.fields f).2 ⟨r, hr, by simp [found]⟩
  obtain ⟨u, hu⟩ := Option.isSome_iff_exists.1 used
  exact ⟨u, hu, List.mem_filterMap.2 ⟨r, hr, found⟩⟩

/-- A record is above others if its types are above the types that those have under one name. -/
theorem upper (above : ∀ f u, c.field? f = some u → ∀ t ∈ rs.filterMap (·.field? f), t ≤ u) :
    ∀ t ∈ rs.map schema, t ≤ c.schema := by
  refine List.forall_mem_map.2 fun r hr => ?_
  refine (schema_le_schema (h.sorted r hr)).2 ⟨h.name r hr, fun f t found => ?_⟩
  obtain ⟨u, hu, ht⟩ := h.exists_field hr found
  exact ⟨u, hu, above f u hu t ht⟩

theorem least (below : ∀ f u, c.field? f = some u →
      ∀ d, (∀ t ∈ rs.filterMap (·.field? f), t ≤ d) → u ≤ d)
    (d : Schema) (hd : ∀ t ∈ rs.map schema, t ≤ d) : c.schema ≤ d := by
  have hd := List.forall_mem_map.1 hd
  obtain ⟨r, hr⟩ := List.exists_mem_of_ne_nil rs h.full
  obtain ⟨e, rfl, name, _⟩ := (schema_le_iff (h.sorted r hr)).1 (hd r hr)
  have found (q : Record) (hq : q ∈ rs) := ((schema_le_schema (h.sorted q hq)).1 (hd q hq)).2
  refine (schema_le_schema h.ascending).2 ⟨(h.name r hr).symm.trans name, fun f u hu => ?_⟩
  -- some record has the field, so what is above all records has it too
  obtain ⟨q, hq, used⟩ := (h.fields f).1 (by simp [hu])
  obtain ⟨s, hs⟩ := Option.isSome_iff_exists.1 used
  obtain ⟨v, hv, _⟩ := found q hq f s hs
  refine ⟨v, hv, below f u hu v fun t ht => ?_⟩
  obtain ⟨p, hp, hpt⟩ := List.mem_filterMap.1 ht
  obtain ⟨w, hw, le⟩ := found p hp f t hpt
  cases hv.symm.trans hw
  exact le

end Record.Gathers

/-- `c` is the least record above the records `rs`, with the fields of those and no more. -/
structure IsMergeOf (rs : List Record) (c : Record) : Prop where
  isJoinOf : IsJoinOf (rs.map Record.schema) c.schema
  name : ∀ r ∈ rs, r.name = c.name
  fields : ∀ f, (c.field? f).isSome → ∃ r ∈ rs, (r.field? f).isSome
  consistent : ∀ lax (t : Record), t.schema.Canonical → (∀ r ∈ rs, r.Consistent lax t) →
    c.Consistent lax t

namespace IsMergeOf
variable {rs qs : List Record} {r c c' d : Record}

theorem single (h : r.schema.Canonical) : IsMergeOf [r] r where
  isJoinOf := .single h
  name s hs := by cases List.mem_singleton.1 hs; rfl
  fields f hf := ⟨r, List.mem_cons_self, hf⟩
  consistent _ _ _ hall := hall r List.mem_cons_self

theorem append (h : IsMergeOf rs c) (h' : IsMergeOf qs c') (step : IsMergeOf [c, c'] d) :
    IsMergeOf (rs ++ qs) d where
  isJoinOf := by
    rw [List.map_append]
    exact h.isJoinOf.append h'.isJoinOf step.isJoinOf
  name := by
    obtain ⟨hcd, hcd'⟩ := forall_mem_pair.1 step.name
    intro r hr
    rcases List.mem_append.1 hr with hr | hr
    · exact (h.name r hr).trans hcd
    · exact (h'.name r hr).trans hcd'
  fields f hf := by
    obtain ⟨s, hs, hsf⟩ := step.fields f hf
    rcases (show s = c ∨ s = c' by simpa using hs) with rfl | rfl
    · obtain ⟨t, ht, htf⟩ := h.fields f hsf
      exact ⟨t, List.mem_append_left _ ht, htf⟩
    · obtain ⟨t, ht, htf⟩ := h'.fields f hsf
      exact ⟨t, List.mem_append_right _ ht, htf⟩
  consistent lax t ht hall := by
    obtain ⟨hrs, hqs⟩ := List.forall_mem_append.1 hall
    apply step.consistent lax t ht
    exact forall_mem_pair.2 ⟨h.consistent lax t ht hrs, h'.consistent lax t ht hqs⟩

end IsMergeOf

namespace Record.Gathers
variable {rs : List Record} {c : Record} (h : Gathers rs c)
  (joined : ∀ f u, c.field? f = some u → IsJoinOf (rs.filterMap (·.field? f)) u)
include h joined

theorem canonical_of_joined : c.schema.Canonical :=
  canonical_schema.2 ⟨h.ascending, fun f u hu => (joined f u hu).canonical⟩

theorem unionFree_of_joined (free : ∀ t ∈ rs.map schema, t.UnionFree) : c.schema.UnionFree := by
  refine (unionFree_record h.ascending).2 fun f u hu => ?_
  apply (joined f u hu).unionFree
  intro t ht
  obtain ⟨r, hr, found⟩ := List.mem_filterMap.1 ht
  exact (unionFree_record (h.sorted r hr)).1 (List.forall_mem_map.1 free r hr) f t found

theorem followsNaming_of_joined (name : Text) (named : ∀ t ∈ rs.map schema, t.FollowsNaming name) :
    c.schema.FollowsNaming name := by
  have parts (r : Record) (hr : r ∈ rs) :=
    (followsNaming_record (h.sorted r hr)).1 (List.forall_mem_map.1 named r hr)
  obtain ⟨r, hr⟩ := List.exists_mem_of_ne_nil rs h.full
  refine (followsNaming_record h.ascending).2
    ⟨(h.name r hr).symm.trans (parts r hr).1, fun f u hu => ?_⟩
  apply (joined f u hu).naming
  intro t ht
  obtain ⟨q, hq, found⟩ := List.mem_filterMap.1 ht
  exact (parts q hq).2 f t found

theorem height_le_of_joined (n : Nat) (low : ∀ t ∈ rs.map schema, t.height ≤ n) :
    c.schema.height ≤ n := by
  have low := List.forall_mem_map.1 low
  obtain ⟨r, hr⟩ := List.exists_mem_of_ne_nil rs h.full
  have pos : 0 < n := Nat.lt_of_lt_of_le (by simp [schema, Schema.height]) (low r hr)
  rw [← Nat.sub_add_cancel pos]
  refine height_schema_le h.ascending fun f u hu => ?_
  apply (joined f u hu).height_le
  intro t ht
  obtain ⟨q, hq, found⟩ := List.mem_filterMap.1 ht
  exact Nat.le_sub_one_of_lt (Nat.lt_of_lt_of_le (height_field?_lt found) (low q hq))

theorem consistent_of_joined (lax : Prop) (q : Record) (hq : q.schema.Canonical)
    (all : ∀ r ∈ rs, r.Consistent lax q) : c.Consistent lax q := by
  obtain ⟨r, hr⟩ := List.exists_mem_of_ne_nil rs h.full
  refine (consistent_iff h.ascending).2
    ⟨(h.name r hr).symm.trans (all r hr).1, fun f u v hu hv => ?_⟩
  refine (joined f u hu).agree lax v ((canonical_schema.1 hq).2 f v hv) fun t ht => ?_
  obtain ⟨p, hp, found⟩ := List.mem_filterMap.1 ht
  exact ((consistent_iff (h.sorted p hp)).1 (all p hp)).2 f t v found hv

theorem agree_of_joined (lax : Prop) (u : Schema) (hu : u.Canonical)
    (all : ∀ t ∈ rs.map schema, Agree lax t u) : Agree lax c.schema u := by
  have all := List.forall_mem_map.1 all
  obtain ⟨r, hr⟩ := List.exists_mem_of_ne_nil rs h.full
  have first := all r hr
  cases u with
  | record m gs =>
    let q : Record := ⟨m, gs⟩
    have parts (r : Record) (hr : r ∈ rs) := (agree_schema (b := q)).1 (all r hr)
    refine (agree_schema (b := q)).2 ⟨?_, overlaps_of_forall h.fields fun r hr => (parts r hr).2⟩
    exact h.consistent_of_joined joined lax q hu fun r hr => (parts r hr).1
  | primitive l => simpa [schema, Agree] using first
  | _ => simp [schema, Agree] at first

/-- What gathers the fields of records is their merge if it has the join of the types of each. -/
theorem isMergeOf : IsMergeOf rs c where
  isJoinOf := {
    canonical := h.canonical_of_joined joined
    unionFree := h.unionFree_of_joined joined
    naming := h.followsNaming_of_joined joined
    height_le := h.height_le_of_joined joined
    upper := h.upper fun f u hu => (joined f u hu).upper
    least := h.least fun f u hu => (joined f u hu).least
    agree := h.agree_of_joined joined }
  name := h.name
  fields f used := (h.fields f).1 used
  consistent := h.consistent_of_joined joined

end Record.Gathers

namespace Joins
variable {j : Join} {level : Nat}

/-- What a join makes of the types that two records have under one name. -/
theorem fieldJoin (hj : Joins j level) {a b c : Record} (ha : a.schema.Canonical)
    (hb : b.schema.Canonical) (la : a.schema.height ≤ level) (lb : b.schema.height ≤ level)
    (h : a.Consistent True b) (merged : a.merge j b = .ok c) (f : Text) (u : Schema)
    (found : c.field? f = some u) : IsJoinOf ([a, b].filterMap (·.field? f)) u := by
  obtain ⟨asca, partsa⟩ := Record.canonical_schema.1 ha
  obtain ⟨ascb, partsb⟩ := Record.canonical_schema.1 hb
  have shared := ((Record.consistent_iff asca).1 h).2 f
  have field := (Record.merge_spec merged asca ascb).2.2 f
  have lowa {s : Schema} (hs : a.field? f = some s) : s.height < level :=
    Nat.lt_of_lt_of_le (Record.height_field?_lt hs) la
  have lowb {s : Schema} (hs : b.field? f = some s) : s.height < level :=
    Nat.lt_of_lt_of_le (Record.height_field?_lt hs) lb
  rw [found] at field
  simp only [List.filterMap_cons, List.filterMap_nil]
  generalize hfa : a.field? f = fa, hfb : b.field? f = fb at field
  cases field with
  | left s => exact .single (partsa f u hfa)
  | right t => exact .single (partsb f u hfb)
  | both joined =>
    exact hj.isJoinOf (partsa f _ hfa) (partsb f _ hfb) (lowa hfa) (lowb hfb)
      (shared _ _ hfa hfb) joined

theorem isMergeOf (hj : Joins j level) {a b c : Record} (ha : a.schema.Canonical)
    (hb : b.schema.Canonical) (la : a.schema.height ≤ level) (lb : b.schema.height ≤ level)
    (h : a.Consistent True b) (merged : a.merge j b = .ok c) : IsMergeOf [a, b] c := by
  have asca := (Record.canonical_schema.1 ha).1
  have ascb := (Record.canonical_schema.1 hb).1
  obtain ⟨name, ascc, field⟩ := Record.merge_spec merged asca ascb
  have gathers : Record.Gathers [a, b] c := by
    refine ⟨by simp, forall_mem_pair.2 ⟨asca, ascb⟩, ascc, ?_, fun f => ?_⟩
    · exact forall_mem_pair.2 ⟨name.symm, h.1.symm.trans name.symm⟩
    · simpa using (field f).isSome_iff
  exact gathers.isMergeOf (hj.fieldJoin ha hb la lb h merged)

theorem exists_merge (hj : Joins j level) {a b : Record} (ha : a.schema.Canonical)
    (hb : b.schema.Canonical) (la : a.schema.height ≤ level) (lb : b.schema.height ≤ level)
    (h : a.Consistent False b) : ∃ c, a.merge j b = .ok c := by
  obtain ⟨asca, partsa⟩ := Record.canonical_schema.1 ha
  obtain ⟨ascb, partsb⟩ := Record.canonical_schema.1 hb
  have shared := ((Record.consistent_iff asca).1 h).2
  refine Record.exists_merge asca ascb fun f s t hs ht => ?_
  exact hj.exists_ok (partsa f s hs) (partsb f t ht)
    (Nat.lt_of_lt_of_le (Record.height_field?_lt hs) la)
    (Nat.lt_of_lt_of_le (Record.height_field?_lt ht) lb) (shared f s t hs ht)

end Joins

end SchemaInference
