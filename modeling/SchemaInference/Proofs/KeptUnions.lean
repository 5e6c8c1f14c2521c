import SchemaInference.Proofs.Tables
import SchemaInference.Proofs.Widening

/-!
# Unions that keep their branches

To join two unions is to put all their branches together once more.  Branches of one slot
then become one branch, records are clustered, and a record that wraps a branch of the union
is unpacked into it.  The branches that are kept are those of a union with distinct slots and
at most one record, which wraps no other branch.
-/

namespace SchemaInference

open Schema

namespace Schema

/-- The schema at a place in a schema. -/
def partAt? : List Step → Schema → Option Schema
  | [], t => some t
  | step :: path, t => (t.part? step).bind (partAt? path)

section Places
variable {s t a b : Schema} {path : List Step}

theorem kindAt?_append (path rest : List Step) (t : Schema) :
    kindAt? (path ++ rest) t = (partAt? path t).bind (kindAt? rest) := by
  induction path generalizing t with
  | nil => rfl
  | cons step path ih =>
    rw [List.cons_append, kindAt?, partAt?, Option.bind_assoc]
    exact congrArg _ (funext ih)

theorem partAt?_withoutWidth (path : List Step) (t : Schema) :
    partAt? path t.withoutWidth = (partAt? path t).map withoutWidth := by
  induction path generalizing t with
  | nil => rfl
  | cons step path ih =>
    rw [partAt?, partAt?, part?_withoutWidth]
    cases t.part? step with
    | none => rfl
    | some part => exact ih part

theorem exists_partAt? (same : s.withoutWidth = t.withoutWidth) (ha : partAt? path s = some a) :
    ∃ b, partAt? path t = some b ∧ a.withoutWidth = b.withoutWidth := by
  have parts := partAt?_withoutWidth path t
  rw [← same, partAt?_withoutWidth, ha] at parts
  obtain ⟨b, hb, kinds⟩ := Option.map_eq_some_iff.1 parts.symm
  exact ⟨b, hb, kinds.symm⟩

theorem withoutWidth_partAt? (same : s.withoutWidth = t.withoutWidth)
    (ha : partAt? path s = some a) (hb : partAt? path t = some b) :
    a.withoutWidth = b.withoutWidth := by
  obtain ⟨c, hc, kinds⟩ := exists_partAt? same ha
  cases hb.symm.trans hc
  exact kinds

theorem everywhere_part? {p : Schema → Prop} (hs : s.Everywhere p) {step : Step}
    (ha : s.part? step = some a) : a.Everywhere p := by
  cases s with
  | primitive k => cases step <;> cases ha
  | array n items =>
    cases step with
    | items => cases ha; exact hs.items
    | _ => cases ha
  | record n fields =>
    cases step with
    | field f => exact hs.field ha
    | _ => cases ha
  | union branches =>
    cases step with
    | branch i => exact hs.branch (List.mem_of_getElem? ha)
    | _ => cases ha

theorem everywhere_partAt? {p : Schema → Prop} (hs : s.Everywhere p)
    (ha : partAt? path s = some a) : a.Everywhere p := by
  induction path generalizing s with
  | nil => cases ha; exact hs
  | cons step path ih =>
    obtain ⟨part, found, rest⟩ := Option.bind_eq_some_iff.1 ha
    exact ih (everywhere_part? hs found) rest

theorem Narrower.partAt? (h : Narrower s t) (path : List Step) (ha : partAt? path s = some a)
    (hb : partAt? path t = some b) : Narrower a b where
  same := withoutWidth_partAt? h.same ha hb
  fits rest k l hk hl := by
    apply h.fits (path ++ rest)
    · rw [kindAt?_append, ha]
      exact hk
    · rw [kindAt?_append, hb]
      exact hl

end Places

/-- Whether joining the branches of a union with narrower ones of their shape keeps them apart. -/
structure KeepsBranches (branches : List Schema) : Prop where
  distinct : (branches.map slot).Nodup
  sole : branches.countP (fun b => b.record?.isSome) ≤ 1
  closed : ∀ b ∈ branches, ∀ r, b.record? = some r → ∀ w, r.wrapped? = some w →
    ∀ p ∈ branches, p.record? = none → p.slot ≠ w.slot

/--
Whether, wherever two schemas have different unions, at least one of these keeps its branches.
-/
def KeepsUnions (s t : Schema) : Prop :=
  ∀ path ss ts, partAt? path s = some (.union ss) → partAt? path t = some (.union ts) →
    ss = ts ∨ KeepsBranches ss ∨ KeepsBranches ts

section Branches
variable {ss ts : List Schema} {s t : Schema}

theorem slot_withoutWidth (t : Schema) : t.withoutWidth.slot = t.slot := by
  cases t with
  | primitive k => cases k <;> rfl
  | array name items => cases name <;> rfl
  | _ => rfl

theorem isSome_record?_withoutWidth (t : Schema) :
    t.withoutWidth.record?.isSome = t.record?.isSome := by
  cases t <;> rfl

theorem slot_eq_of_withoutWidth_eq (same : s.withoutWidth = t.withoutWidth) :
    s.slot = t.slot := by
  rw [← slot_withoutWidth, same, slot_withoutWidth]

theorem isSome_record?_eq (same : s.withoutWidth = t.withoutWidth) :
    s.record?.isSome = t.record?.isSome := by
  rw [← isSome_record?_withoutWidth, same, isSome_record?_withoutWidth]

theorem map_withoutWidth_eq (same : (union ss).withoutWidth = (union ts).withoutWidth) :
    ss.map withoutWidth = ts.map withoutWidth := by
  rw [← branchesWithoutWidth_eq_map, ← branchesWithoutWidth_eq_map]
  exact Schema.union.inj same

theorem map_slot_eq (same : ss.map withoutWidth = ts.map withoutWidth) :
    ss.map slot = ts.map slot := by
  have slots (us : List Schema) : us.map slot = (us.map withoutWidth).map slot := by
    rw [List.map_map]
    exact List.map_congr_left fun u _ => (slot_withoutWidth u).symm
  rw [slots ss, same, ← slots ts]

theorem countP_record?_eq (same : ss.map withoutWidth = ts.map withoutWidth) :
    ss.countP (fun b => b.record?.isSome) = ts.countP fun b => b.record?.isSome := by
  have count (us : List Schema) : us.countP (fun b => b.record?.isSome) =
      (us.map withoutWidth).countP fun b => b.record?.isSome := by
    rw [List.countP_map]
    exact List.countP_congr fun u _ => by rw [Function.comp, isSome_record?_withoutWidth]
  rw [count ss, same, ← count ts]

/-- A record whose kinds are narrower wraps a branch of the same slot. -/
theorem exists_wrapped? {r q : Record} {w : Schema} (narrower : Narrower r.schema q.schema)
    (wrapped : q.wrapped? = some w) : ∃ v, r.wrapped? = some v ∧ v.slot = w.slot := by
  obtain ⟨tag, wraps⟩ := Record.wraps_of_wrapped? wrapped
  obtain ⟨n, fields⟩ := r
  obtain ⟨u, hu⟩ : ∃ u, q.fields = [(tag, u)] := by
    cases wraps <;> exact ⟨_, rfl⟩
  -- the narrower record has the one field of the other
  obtain ⟨t, rfl⟩ : ∃ t, fields = [(tag, t)] := by
    have same := (Schema.record.inj narrower.same).2.symm
    rw [hu] at same
    obtain ⟨t, rest, rfl, _, none⟩ := fieldsWithoutWidth_cons_eq same
    cases rest with
    | nil => exact ⟨t, rfl⟩
    | cons => cases none
  have part : Narrower t u := by
    apply narrower.part? (.field tag)
    · simp [Record.schema, Schema.part?]
    · simp [Record.schema, Schema.part?, hu]
  cases wraps with
  | @primitive _ _ k l named fits =>
    cases hu
    cases t with
    | primitive m =>
      have narrow : m.fits k = true := part.fits [] m k rfl rfl
      refine ⟨.primitive l, ?_, rfl⟩
      simp [Record.wrapped?, named, Kind.fits_trans narrow fits]
    | _ => cases part.same
  | array =>
    cases hu
    cases t with
    | array m items => exact ⟨_, rfl, rfl⟩
    | _ => cases part.same
  | record =>
    cases hu
    cases t with
    | record m fields =>
      obtain ⟨rfl, _⟩ := Schema.record.inj part.same
      exact ⟨_, rfl, rfl⟩
    | _ => cases part.same

theorem KeepsBranches.mono (h : KeepsBranches ss) (narrower : Narrower (.union ss) (.union ts)) :
    KeepsBranches ts := by
  have same := map_withoutWidth_eq narrower.same
  constructor
  · rw [← map_slot_eq same]
    exact h.distinct
  · rw [← countP_record?_eq same]
    exact h.sole
  · intro b hb q hq w wrapped p hp plain own
    obtain ⟨i, hi⟩ := List.mem_iff_getElem?.1 hb
    have kinds := congrArg (fun us : List Schema => us[i]?) same
    simp only [List.getElem?_map, hi, Option.map_some] at kinds
    obtain ⟨a, ha, heq⟩ := Option.map_eq_some_iff.1 kinds
    have part : Narrower a b := narrower.part? (.branch i) ha hi
    obtain ⟨r, hr⟩ : ∃ r, a.record? = some r := by
      apply Option.isSome_iff_exists.1
      rw [isSome_record?_eq heq, hq]
      rfl
    rw [← schema_of_record? hr, ← schema_of_record? hq] at part
    obtain ⟨v, wrapped', slot⟩ := exists_wrapped? part wrapped
    have image : p.withoutWidth ∈ ss.map withoutWidth := by
      rw [same]
      exact List.mem_map_of_mem hp
    obtain ⟨p', hp', heq'⟩ := List.mem_map.1 image
    apply h.closed a (List.mem_of_getElem? ha) r hr v wrapped' p' hp'
    · rw [← Option.not_isSome_iff_eq_none, isSome_record?_eq heq', plain]
      exact Bool.false_ne_true
    · rw [slot_eq_of_withoutWidth_eq heq', own, slot]

end Branches

section Unions
variable {s t a b c e : Schema} {ts : List Schema}

theorem KeepsUnions.part? (h : KeepsUnions s t) (step : Step) (ha : s.part? step = some a)
    (hb : t.part? step = some b) : KeepsUnions a b := by
  intro path ss ts hss hts
  apply h (step :: path)
  · rw [partAt?, ha]
    exact hss
  · rw [partAt?, hb]
    exact hts

theorem KeepsUnions.of_everywhere
    (h : s.Everywhere fun u => ∀ branches, u = .union branches → KeepsBranches branches) :
    KeepsUnions s t := by
  intro path ss ts hss _
  exact .inr (.inl ((everywhere_partAt? h hss).self ss rfl))

theorem exists_union_of_withoutWidth_eq {ss : List Schema}
    (same : (union ss).withoutWidth = t.withoutWidth) : ∃ ts, t = .union ts := by
  cases sameForm same with
  | @unions _ ts => exact ⟨ts, rfl⟩

/-- If several schemas have the same part at a place, the widest of them has it too. -/
theorem IsWidest.eq_of_partAt? (widest : IsWidest ts c) {path : List Step}
    (ha : partAt? path c = some a) (hca : a.Canonical) (hcb : b.Canonical)
    (same : a.withoutWidth = b.withoutWidth) (equal : ∀ t ∈ ts, partAt? path t = some b) :
    a = b := by
  have own {rest : List Step} {k : Kind} (hk : kindAt? rest a = some k) :
      kindAt? rest b = some k := by
    obtain ⟨t, ht, found⟩ := widest.mem (path ++ rest) k (by rw [kindAt?_append, ha]; exact hk)
    rw [kindAt?_append, equal t ht] at found
    exact found
  refine eq_of_kindAt? hca hcb same fun rest => ?_
  cases hk : kindAt? rest a with
  | some k => rw [own hk]
  | none =>
    cases hl : kindAt? rest b with
    | none => rfl
    | some l =>
      obtain ⟨k, found, _⟩ := exists_kindAt? same.symm hl
      rw [hk] at found
      cases found

/-- What keeps the unions of several schemas keeps those of the widest of them. -/
theorem KeepsUnions.widest (keeps : ∀ t ∈ ts, KeepsUnions t e) (canonical : ∀ t ∈ ts, t.Canonical)
    (hc : c.Canonical) (he : e.Canonical) (widest : IsWidest ts c)
    (same : c.withoutWidth = e.withoutWidth) : KeepsUnions c e := by
  intro path cs es hcs hes
  by_contra lost
  simp only [not_or] at lost
  obtain ⟨ne, lostc, loste⟩ := lost
  have parts := withoutWidth_partAt? same hcs hes
  refine ne (Schema.union.inj ?_)
  apply widest.eq_of_partAt? hcs (everywhere_partAt? hc hcs) (everywhere_partAt? he hes) parts
  intro t ht
  have narrower := widest.narrower ht (canonical t ht) hc
  obtain ⟨u, hu, kinds⟩ := exists_partAt? narrower.same.symm hcs
  obtain ⟨us, rfl⟩ := exists_union_of_withoutWidth_eq kinds
  rcases keeps t ht path us es hu hes with rfl | kept | kept
  · exact hu
  · exact absurd (kept.mono (narrower.partAt? path hu hcs)) lostc
  · exact absurd kept loste

end Unions

end Schema

end SchemaInference
