import SchemaInference.Proofs.Inhabitants
import SchemaInference.Proofs.UnionShape

/-!
# Joins that lose no values

A join is sound if what inhabits one of two types inhabits their join.  Then merging
records loses no values, nor does adding branches to a table: a branch takes in the values
and the tags of what is added to its slot.
-/

namespace SchemaInference

open Schema

namespace Schema

/-- Whether a schema is an array that was unpacked from a tagged wrapper. -/
def isNamedArray : Schema → Bool
  | .array (some _) _ => true
  | _ => false

/-- Whether no array has a name where it stands for itself, as items or as a field. -/
def PartsUnnamed : Schema → Prop
  | .array _ items => items.isNamedArray = false
  | .record _ fields => ∀ f ∈ fields, f.2.isNamedArray = false
  | _ => True

/-- A schema that is built properly and names arrays in unions only. -/
structure Regular (t : Schema) : Prop where
  tidy : t.AllTidy
  parts : t.Everywhere PartsUnnamed

/-- A regular schema that can stand for itself. -/
structure Lone (t : Schema) : Prop extends Regular t where
  unnamed : t.isNamedArray = false

def Subsumes (vacant : Prop) (t s : Schema) : Prop :=
  ∀ v : Json, v.Inhabits vacant s → v.Inhabits vacant t

variable {vacant : Prop} {s t u : Schema}

theorem Subsumes.refl (t : Schema) : t.Subsumes vacant t := fun _ => id

theorem Subsumes.trans (htu : u.Subsumes vacant t) (hst : t.Subsumes vacant s) :
    u.Subsumes vacant s :=
  fun v hv => htu v (hst v hv)

theorem lone_primitive (k : Kind) : Lone (.primitive k) :=
  ⟨⟨everywhere_primitive.2 trivial, everywhere_primitive.2 trivial⟩, rfl⟩

theorem regular_array {n : Option Text} {items : Schema} :
    Regular (.array n items) ↔ items.Lone :=
  ⟨fun h => ⟨⟨h.tidy.items, h.parts.items⟩, h.parts.self⟩,
    fun h => ⟨everywhere_array.2 ⟨trivial, h.tidy⟩, everywhere_array.2 ⟨h.unnamed, h.parts⟩⟩⟩

theorem regular_record {r : Record} : r.schema.Regular ↔
    (Ascending r.fields ∧ r.FieldsNamed) ∧ ∀ f t, r.field? f = some t → t.Lone := by
  constructor
  · intro h
    obtain ⟨shape, tidy⟩ := allTidy_record.1 h.tidy
    refine ⟨shape, fun f t found => ⟨⟨tidy f t found, h.parts.field found⟩, ?_⟩⟩
    exact h.parts.self (f, t) (mem_of_lookup found)
  · rintro ⟨⟨asc, named⟩, parts⟩
    have lone {f : Text} {t : Schema} (hmem : (f, t) ∈ r.fields) : t.Lone :=
      parts f t (asc.lookup_eq_some_iff.2 hmem)
    refine ⟨allTidy_record.2 ⟨⟨asc, named⟩, fun f t found => (parts f t found).tidy⟩, ?_⟩
    exact everywhere_record.2 ⟨fun f hf => (lone hf).unnamed, fun f t hmem => (lone hmem).parts⟩

theorem Regular.lone_record {r : Record} (h : r.schema.Regular) : r.schema.Lone := ⟨h, rfl⟩

theorem Regular.branch {b : Schema} (h : t.Regular) (hb : b ∈ t.branches) :
    b.Regular ∧ b.isUnion = false := by
  refine ⟨⟨TidyJoin.allTidy_branch h.tidy hb, ?_⟩, TidyJoin.isUnion_branch h.tidy hb⟩
  cases t with
  | union bs => exact h.parts.branch hb
  | _ => cases List.mem_singleton.1 hb; exact h.parts

/-- Only records describe an object without members, unless all schemas do. -/
theorem Regular.exists_record_of_empty (h : t.Regular)
    (hv : (Json.object []).Inhabits vacant t) :
    vacant ∨ ∃ r : Record, t.isCompound = true ∧ r.schema ∈ t.branches := by
  have alone {b : Schema} (flat : b.isUnion = false) (hv : (Json.object []).Inhabits vacant b) :
      vacant ∨ ∃ r : Record, b = r.schema := by
    cases hv with
    | empty all => exact .inl all
    | @object _ n fields => exact .inr ⟨⟨n, fields⟩, rfl⟩
    | branch => cases flat
  cases flat : t.isUnion with
  | false =>
    refine (alone flat hv).imp_right fun ⟨r, heq⟩ => ⟨r, ?_⟩
    rw [heq]
    exact ⟨rfl, List.mem_cons_self⟩
  | true =>
    cases hv with
    | empty all => exact .inl all
    | branch mem fits =>
      refine (alone (h.branch mem).2 fits).imp_right fun ⟨r, heq⟩ => ⟨r, rfl, ?_⟩
      exact heq ▸ mem
    | _ => cases flat

theorem subsumes_array {n m : Option Text} (h : t.Subsumes vacant s) :
    Subsumes vacant (.array m t) (.array n s) := by
  intro v hv
  cases hv with
  | empty all => exact .empty all _
  | null => exact .null _
  | array fits => exact .array fun v hv => h v (fits v hv)

theorem subsumes_record {a c : Record}
    (h : ∀ f s, a.field? f = some s → ∃ t, c.field? f = some t ∧ t.Subsumes vacant s) :
    c.schema.Subsumes vacant a.schema := by
  intro v hv
  cases hv with
  | empty all => exact .empty all _
  | null => exact .null _
  | object distinct known fits =>
    refine .object distinct (fun f v hmem => ?_) fun f v t hmem found => ?_
    · obtain ⟨s, found⟩ := known f v hmem
      obtain ⟨t, foundt, _⟩ := h f s found
      exact ⟨t, foundt⟩
    · obtain ⟨s, founds⟩ := known f v hmem
      obtain ⟨t', foundt, into⟩ := h f s founds
      cases found.symm.trans foundt
      exact into v (fits f v s hmem founds)

end Schema

/-- A join of schemas that stand for themselves, which loses none of their values. -/
structure SoundJoin (vacant : Prop) (j : Join) : Prop where
  tidy : TidyJoin j
  lone : ∀ {a b c : Schema}, a.Lone → b.Lone → j a b = .ok c → c.Lone
  subsumes : ∀ {a b c : Schema}, a.Lone → b.Lone → j a b = .ok c →
    c.Subsumes vacant a ∧ c.Subsumes vacant b

/-- What a branch `d` takes in of a branch `s` that grows into it. -/
structure Schema.TakesIn (vacant : Prop) (d s : Schema) : Prop where
  values : d.Subsumes vacant s
  tags : d.slot = .of .unnamedArray ∨
    s.slot ≠ .of .unnamedArray ∧ ∀ tag, s.HasTag tag → d.HasTag tag
  null : d = .null → s = .null
  plain : s.isCompound = false → d.isCompound = false

namespace Schema.TakesIn
variable {vacant : Prop} {a b c d s : Schema}

theorem refl (s : Schema) : s.TakesIn vacant s := by
  refine ⟨.refl s, ?_, id, id⟩
  by_cases h : s.slot = .of .unnamedArray
  · exact .inl h
  · exact .inr ⟨h, fun _ => id⟩

theorem trans (hab : b.TakesIn vacant a) (hbc : c.TakesIn vacant b) : c.TakesIn vacant a := by
  refine ⟨hbc.values.trans hab.values, ?_, hab.null ∘ hbc.null, hbc.plain ∘ hab.plain⟩
  rcases hbc.tags with unnamed | ⟨named, into⟩
  · exact .inl unnamed
  · obtain ⟨named', into'⟩ := hab.tags.resolve_left named
    exact .inr ⟨named', fun tag => into tag ∘ into' tag⟩

theorem primitive {k m : Kind} (fits : k.fits m = true) (null : k = .null → m = .null) :
    TakesIn vacant (.primitive m) (.primitive k) := by
  refine ⟨fun v hv => hv.mono (primitive_le_primitive.2 fits), .inr ⟨?_, fun tag named => ?_⟩,
    fun heq => ?_, id⟩
  · cases k <;> nofun
  · by_cases full : k = .null
    · cases null full
      cases full
      exact named
    · exact hasTag_of_fits fits full named
  · cases heq
    rw [Kind.eq_null_of_fits_null fits]

theorem array {n o : Option Text} {s t : Schema} (h : t.Subsumes vacant s)
    (name : o = n ∨ o = none) :
    TakesIn vacant (.array o t) (.array n s) := by
  refine ⟨subsumes_array h, ?_, nofun, fun _ => rfl⟩
  rcases name with rfl | rfl
  · cases o with
    | none => exact .inl rfl
    | some o => exact .inr ⟨nofun, fun _ => id⟩
  · exact .inl rfl

/-- What a branch is described by is described by the branch that it grows into. -/
theorem inhabitsBranch (h : d.TakesIn vacant s) (same : d.slot = s.slot) {v : Json}
    (hv : v.InhabitsBranch vacant s) : v.InhabitsBranch vacant d := by
  rcases hv with hv | ⟨tag, w, rfl, named, hw⟩
  · exact .inl (h.values v hv)
  · rcases h.tags with unnamed | ⟨_, into⟩
    · -- an unnamed array has no tag
      rw [same] at unnamed
      cases s with
      | array n items =>
        cases n with
        | none => cases named
        | some n => cases unnamed
      | primitive k => cases k <;> cases unnamed
      | record => cases unnamed
      | union => cases named
    · exact .inr ⟨tag, w, rfl, into tag named, h.values w hw⟩

end Schema.TakesIn

namespace SoundJoin
variable {vacant : Prop} {j : Join} (hj : SoundJoin vacant j)

include hj in
theorem widens : Widens j Regular fun s d => d.TakesIn vacant s where
  refl _ := .refl _
  trans := .trans
  join {a b c} ha hb joined := by
    cases joinPlain_eq_ok.1 joined with
    | @primitives k l m kinds =>
      obtain ⟨hk, hl⟩ := Kind.fits_of_join? kinds
      obtain ⟨nk, nl⟩ := Kind.eq_null_of_join? kinds
      exact ⟨(lone_primitive m).toRegular, .primitive hk nk, .primitive hl nl⟩
    | arrays n m items =>
      obtain ⟨hs, ht⟩ := hj.subsumes (regular_array.1 ha) (regular_array.1 hb) items
      have lone := hj.lone (regular_array.1 ha) (regular_array.1 hb) items
      refine ⟨regular_array.2 lone, .array hs ?_, .array ht ?_⟩
      · split <;> simp
      · split <;> simp_all

include hj in
/-- Plain types that stand for themselves join into one that does. -/
theorem widens_lone : Widens j Lone fun s d => d.TakesIn vacant s where
  refl _ := .refl _
  trans := .trans
  join {a b c} ha hb joined := by
    obtain ⟨regular, hac, hbc⟩ := hj.widens.join ha.toRegular hb.toRegular joined
    refine ⟨⟨regular, ?_⟩, hac, hbc⟩
    cases joinPlain_eq_ok.1 joined with
    | primitives => rfl
    | arrays n m items =>
      have unnamed := ha.unnamed
      cases n with
      | none => split <;> rfl
      | some n => cases unnamed

section Records
variable {a b c r : Record} {rs cs : List Record}

include hj in
theorem merge_spec (ha : a.schema.Regular) (hb : b.schema.Regular) (h : a.merge j b = .ok c) :
    c.schema.Regular ∧ c.schema.Subsumes vacant a.schema ∧ c.schema.Subsumes vacant b.schema := by
  obtain ⟨⟨asca, nameda⟩, partsa⟩ := regular_record.1 ha
  obtain ⟨⟨ascb, namedb⟩, partsb⟩ := regular_record.1 hb
  obtain ⟨_, ascc, field⟩ := Record.merge_spec h asca ascb
  have tidy := allTidy_record.1 (hj.tidy.tidy_merge ha.tidy hb.tidy h)
  refine ⟨regular_record.2 ⟨tidy.1, fun f u found => ?_⟩, subsumes_record fun f s found => ?_,
    subsumes_record fun f t found => ?_⟩
  all_goals
    have joined := field f
    rw [found] at joined
  · apply joined.of_some (partsa f) (partsb f)
    intro s t hs ht inner
    exact hj.lone (partsa f s hs) (partsb f t ht) inner
  · generalize hfb : b.field? f = fb, c.field? f = fc at joined
    cases joined with
    | left s => exact ⟨s, rfl, .refl s⟩
    | both joined => exact ⟨_, rfl, (hj.subsumes (partsa f _ found) (partsb f _ hfb) joined).1⟩
  · generalize hfa : a.field? f = fa, c.field? f = fc at joined
    cases joined with
    | right t => exact ⟨t, rfl, .refl t⟩
    | both joined => exact ⟨_, rfl, (hj.subsumes (partsa f _ hfa) (partsb f _ found) joined).2⟩

include hj in
theorem grows : Record.Grows j (fun r => r.schema.Regular)
    fun a c => c.schema.Subsumes vacant a.schema where
  refl _ := .refl _
  trans hab hbc := hbc.trans hab
  merge ha hb _ merged := hj.merge_spec ha hb merged

/-- The branch that a record wraps describes what inhabits the record, other than nothing. -/
theorem wrapped_spec {d : Schema} (h : r.schema.Regular) (wrapped : r.wrapped? = some d) :
    d.Regular ∧ ∀ (vacant : Prop) (v : Json), v.Inhabits vacant r.schema → v ≠ .object [] →
      v.InhabitsBranch vacant d := by
  obtain ⟨⟨_, named⟩, parts⟩ := regular_record.1 h
  obtain ⟨tag, wraps⟩ := Record.wraps_of_wrapped? wrapped
  obtain ⟨s, only, regular, hasTag, into⟩ : ∃ s, r.fields = [(tag, s)] ∧ d.Regular ∧
      d.HasTag tag ∧ ∀ vacant, d.Subsumes vacant s := by
    cases wraps with
    | @primitive _ _ k l keyword fits =>
      refine ⟨.primitive k, rfl, (lone_primitive l).toRegular, .inl keyword, fun _ v hv => ?_⟩
      exact hv.mono (primitive_le_primitive.2 fits)
    | @array _ _ n items =>
      have lone := regular_array.1 (parts tag (.array n items) (by simp [Record.field?])).toRegular
      exact ⟨.array n items, rfl, regular_array.2 lone, rfl, fun _ => subsumes_array (.refl items)⟩
    | @record _ _ m fields =>
      have lone : (Schema.record m fields).Lone := parts tag _ (by simp [Record.field?])
      have name : m = tag := named tag m fields (by simp [Record.field?])
      exact ⟨.record m fields, rfl, lone.toRegular, name, fun _ => .refl _⟩
  refine ⟨regular, fun vacant v hv some => ?_⟩
  obtain ⟨name, fields⟩ := r
  cases only
  rcases hv.of_single with rfl | rfl | ⟨w, rfl, hw⟩
  · exact .inl (.null d)
  · exact absurd rfl some
  · exact .inr ⟨tag, w, rfl, hasTag, into vacant w hw⟩

end Records

end SoundJoin

end SchemaInference
