import SchemaInference.Proofs.BranchOrder
import SchemaInference.Proofs.Clusters
import SchemaInference.Proofs.Documents
import SchemaInference.Proofs.JoinCases

/-!
# Tables of branches

A table is well formed if every slot stands once and holds a branch of that slot.
Adding a branch fills its slot and leaves the others alone; the tagged wrappers of
records that do not overlap go to slots of their own, numbers apart.
-/

namespace SchemaInference

open Schema

/-- What joining plain branches keeps: `P` holds of the join, which both are related to. -/
structure Widens (j : Join) (P : Schema → Prop) (R : Schema → Schema → Prop) : Prop where
  refl : ∀ {a}, P a → R a a
  trans : ∀ {a b c}, R a b → R b c → R a c
  join : ∀ {a b c}, P a → P b → joinPlain .strict j a b = .ok c → P c ∧ R a c ∧ R b c

theorem widens_true (j : Join) : Widens j (fun _ => True) fun _ _ => True :=
  ⟨fun _ => trivial, fun _ _ => trivial, fun _ _ _ => ⟨trivial, trivial, trivial⟩⟩

namespace Record

/-- The record-typed fields of a record are named after the field. -/
def FieldsNamed (r : Record) : Prop := ∀ f m gs, r.field? f = some (.record m gs) → m = f

/-- `r` is a tagged wrapper of the branch `b`. -/
inductive Wraps : Record → Text → Schema → Prop where
  | primitive {name tag : Text} {k l : Kind} (named : tag = l.keyword) (fits : k.fits l = true) :
    Wraps ⟨name, [(tag, .primitive k)]⟩ tag (.primitive l)
  | array {name tag : Text} {n : Option Text} {items : Schema} :
    Wraps ⟨name, [(tag, .array n items)]⟩ tag (.array (some tag) items)
  | record {name tag m : Text} {fields : List (Text × Schema)} :
    Wraps ⟨name, [(tag, .record m fields)]⟩ tag (.record m fields)

variable {r q : Record} {tag tag' : Text} {b b' : Schema}

theorem wraps_of_wrapped? (h : r.wrapped? = some b) : ∃ tag, r.Wraps tag b := by
  obtain ⟨name, fields⟩ := r
  unfold wrapped? at h
  split at h
  · next tag kind heq =>
    cases heq
    split at h
    · next l found =>
      split at h
      · next fits => cases h; exact ⟨tag, .primitive (Kind.keyword_of_ofKeyword? found).symm fits⟩
      · cases h
    · cases h
  · next heq => cases heq; cases h; exact ⟨_, .array⟩
  · next heq => cases heq; cases h; exact ⟨_, .record⟩
  · cases h

theorem Wraps.field?_isSome (h : r.Wraps tag b) : (r.field? tag).isSome := by
  cases h <;> simp [field?]

theorem Wraps.isUnion_eq_false (h : r.Wraps tag b) : b.isUnion = false := by
  cases h <;> rfl

/-- The slot of a wrapped branch gives its tag, unless it is that of the numbers. -/
theorem Wraps.slot_name (h : r.Wraps tag b) (named : r.FieldsNamed) :
    b.slot = .number ∨ b.slot.name = tag := by
  cases h with
  | primitive heq fits =>
    simp only [slot]
    split
    · exact .inl rfl
    · exact .inr heq.symm
  | array => exact .inr rfl
  | @record name tag m fields => exact .inr (named tag m fields (by simp [field?]))

/-- Wrappers that do not overlap go to different slots unless both wrap numbers. -/
theorem Wraps.slot_ne (h : r.Wraps tag b) (h' : q.Wraps tag' b') (named : r.FieldsNamed)
    (named' : q.FieldsNamed) (apart : r.overlaps q = false) (numbers : b.slot ≠ .number) :
    b.slot ≠ b'.slot := by
  intro same
  have heq := (h.slot_name named).resolve_left numbers
  have heq' := (h'.slot_name named').resolve_left (same ▸ numbers)
  have shared : tag = tag' := heq.symm.trans ((congrArg Slot.name same).trans heq')
  have free := (overlaps_eq_false_iff.1 apart).2.2 tag h.field?_isSome
  have used := h'.field?_isSome
  rw [← shared, free] at used
  cases used

end Record

namespace BranchTable
variable {j : Join}

/-- What is put in place of the branches `present` and `added` of a slot. -/
def joinedBranch (present added : Schema) : Except Disagreement Schema → Except Disagreement Schema
  | .error reason => .error (.incompatibleBranches present added reason)
  | .ok (.union _) => .error (.nestedUnion added)
  | .ok joined => .ok joined

/-- What a slot holds after `added` has come to what it held before. -/
def fill (j : Join) (added : Schema) : Option Schema → Except Disagreement Schema
  | none => .ok added
  | some present => match present, added with
    | .primitive .., .primitive .. | .array .., .array .. =>
      joinedBranch present added (joinPlain .strict j present added)
    | .record .., .record .. => joinedBranch present added (j present added)
    | _, _ => .error (.sharedName present added added.slot.name)

theorem add_eq (table : BranchTable) (added : Schema) : table.add j added =
    (fill j added (Keyed.get? added.slot table)).map fun b => Keyed.put added.slot b table := by
  have settled (present : Schema) (outcome : Except Disagreement Schema) :
      settle table added.slot present added outcome =
        (joinedBranch present added outcome).map fun b => Keyed.put added.slot b table := by
    cases outcome with
    | error reason => rfl
    | ok joined => cases joined <;> rfl
  unfold add
  cases Keyed.get? added.slot table with
  | none => rfl
  | some present => cases present <;> cases added <;> first | rfl | exact settled _ _

theorem add_eq_ok {table next : BranchTable} {added : Schema} :
    table.add j added = .ok next ↔ ∃ b, fill j added (Keyed.get? added.slot table) = .ok b ∧
      next = Keyed.put added.slot b table := by
  rw [add_eq]
  cases fill j added (Keyed.get? added.slot table) with
  | error reason => simp [Except.map]
  | ok b => simp [Except.map, eq_comm]

inductive Filled (j : Join) (added : Schema) : Option Schema → Schema → Prop where
  | fresh : Filled j added none added
  | joined {present b : Schema} (h : joinPlain .strict j present added = .ok b) :
    Filled j added (some present) b
  | records {present b : Schema} (isRecord : present.record?.isSome)
    (isRecord' : added.record?.isSome) (h : j present added = .ok b)
    (flat : b.isUnion = false) : Filled j added (some present) b

theorem filled_of_fill {added b : Schema} {present : Option Schema}
    (h : fill j added present = .ok b) : Filled j added present b := by
  have of_joined {present : Schema} {outcome : Except Disagreement Schema}
      (h : joinedBranch present added outcome = .ok b) :
      outcome = .ok b ∧ b.isUnion = false := by
    cases outcome with
    | error reason => cases h
    | ok joined => cases joined <;> cases h <;> exact ⟨rfl, rfl⟩
  cases present with
  | none => cases h; exact .fresh
  | some present =>
    cases present <;> cases added <;> simp only [fill] at h
    case record.record => exact .records rfl rfl (of_joined h).1 (of_joined h).2
    all_goals first
      | exact .joined (of_joined h).1
      | cases h

/--
The table that the branches `sources` fill: each of them has grown into what its slot
holds, and every slot holds a branch of its own.
-/
structure Holds (P : Schema → Prop) (R : Schema → Schema → Prop) (sources : List Schema)
    (table : BranchTable) : Prop where
  distinct : (table.map Prod.fst).Nodup
  slot : ∀ k b, Keyed.get? k table = some b → b.slot = k
  flat : ∀ k b, Keyed.get? k table = some b → b.isUnion = false
  keeps : ∀ k b, Keyed.get? k table = some b → P b
  covers : ∀ s ∈ sources, ∃ b, Keyed.get? s.slot table = some b ∧ R s b
  source : ∀ k b, Keyed.get? k table = some b → ∃ s ∈ sources, s.slot = k
  compound : ∀ k b, Keyed.get? k table = some b → b.isCompound = true → b ∈ sources

section Holds
variable {P : Schema → Prop} {R : Schema → Schema → Prop} {sources : List Schema}
  {table next : BranchTable} {added : Schema}

theorem holds_nil : Holds P R [] [] where
  distinct := .nil
  slot := by simp [Keyed.get?]
  flat := by simp [Keyed.get?]
  keeps := by simp [Keyed.get?]
  covers := by simp
  source := by simp [Keyed.get?]
  compound := by simp [Keyed.get?]

/-- What a slot holds after `added` has been put there, in terms of what it held before. -/
structure Filling (P : Schema → Prop) (R : Schema → Schema → Prop) (table : BranchTable)
    (added c : Schema) : Prop where
  slot : c.slot = added.slot
  flat : c.isUnion = false
  keeps : P c
  covers : R added c
  widens : ∀ b, Keyed.get? added.slot table = some b → R b c
  compound : c.isCompound = true → c = added

section Add
variable (widens : Widens j P R) (h : Holds P R sources table) (good : P added)
  (flat : added.isUnion = false)
  (apart : added.isCompound = true → ∀ s ∈ sources, s.isCompound = true → s.slot ≠ added.slot)
include widens h good flat apart

theorem Holds.filling {c : Schema}
    (filled : fill j added (Keyed.get? added.slot table) = .ok c) : Filling P R table added c := by
  generalize held : Keyed.get? added.slot table = present at filled
  cases filled_of_fill filled with
  | fresh =>
    refine ⟨rfl, flat, good, widens.refl good, ?_, fun _ => rfl⟩
    simp [held]
  | joined joined =>
    obtain ⟨keeps, wider, wider'⟩ := widens.join (h.keeps _ _ held) good joined
    have plain := (isCompound_of_joinPlain joined).2.2
    refine ⟨slot_joinPlain joined (h.slot _ _ held), ?_, keeps, wider', ?_, ?_⟩
    · exact isUnion_eq_false plain
    · intro b found
      cases held.symm.trans found
      exact wider
    · simp [plain]
  | @records present _ isRecord isRecord' =>
    have compound {s : Schema} (hs : s.record?.isSome = true) : s.isCompound = true := by
      cases s <;> first | rfl | cases hs
    exact absurd (h.slot _ _ held)
      (apart (compound isRecord') present (h.compound _ _ held (compound isRecord))
        (compound isRecord))

/-- Adding a branch that shares its slot with no record if it is one. -/
theorem Holds.add (step : table.add j added = .ok next) : Holds P R (sources ++ [added]) next := by
  obtain ⟨c, filled, rfl⟩ := add_eq_ok.1 step
  have filling := h.filling widens good flat apart filled
  have entry {k : Slot} {b : Schema}
      (found : Keyed.get? k (Keyed.put added.slot c table) = some b) :
      k = added.slot ∧ b = c ∨ Keyed.get? k table = some b := by
    rw [Keyed.get?_put] at found
    split at found
    · next heq => cases found; exact .inl ⟨heq, rfl⟩
    · exact .inr found
  constructor
  case distinct => exact Keyed.nodup_keys_put h.distinct
  case slot =>
    intro k b found
    rcases entry found with ⟨rfl, rfl⟩ | found
    · exact filling.slot
    · exact h.slot k b found
  case flat =>
    intro k b found
    rcases entry found with ⟨rfl, rfl⟩ | found
    · exact filling.flat
    · exact h.flat k b found
  case keeps =>
    intro k b found
    rcases entry found with ⟨rfl, rfl⟩ | found
    · exact filling.keeps
    · exact h.keeps k b found
  case covers =>
    refine List.forall_mem_append.2 ⟨fun s hs => ?_, ?_⟩
    · obtain ⟨b, found, hb⟩ := h.covers s hs
      by_cases heq : s.slot = added.slot
      · refine ⟨c, by rw [Keyed.get?_put, if_pos heq], widens.trans hb (filling.widens b ?_)⟩
        rw [← heq, found]
      · exact ⟨b, by rw [Keyed.get?_put, if_neg heq, found], hb⟩
    · simp [Keyed.get?_put, filling.covers]
  case source =>
    intro k b found
    rcases entry found with ⟨rfl, _⟩ | found
    · exact ⟨added, by simp, rfl⟩
    · obtain ⟨s, hs, heq⟩ := h.source k b found
      exact ⟨s, List.mem_append_left _ hs, heq⟩
  case compound =>
    intro k b found isCompound
    rcases entry found with ⟨_, rfl⟩ | found
    · simp [filling.compound isCompound]
    · exact List.mem_append_left _ (h.compound k b found isCompound)

end Add

theorem holds_of_foldlM {parts : List Schema} (widens : Widens j P R)
    (good : ∀ p ∈ parts, P p) (plain : ∀ p ∈ parts, p.isCompound = false)
    (h : parts.foldlM (BranchTable.add j) [] = .ok table) : Holds P R parts table := by
  refine foldlM_invariant (Holds P R) h holds_nil ?_
  intro seen p rest t t' whole holds step
  have hp : p ∈ parts := by simp [← whole]
  refine holds.add widens (good p hp) ?_ (fun isCompound => ?_) step
  · have := plain p hp
    cases p <;> first | rfl | cases this
  · rw [plain p hp] at isCompound
    cases isCompound

/-- The table of the wrappers of records that do not overlap. -/
theorem Holds.addWrapped {rs : List Record} (widens : Widens j P R) (h : Holds P R sources table)
    (plain : ∀ s ∈ sources, s.isCompound = false)
    (good : ∀ r ∈ rs, ∀ b, r.wrapped? = some b → P b) (named : ∀ r ∈ rs, r.FieldsNamed)
    (apart : rs.Pairwise fun r q => r.overlaps q = false)
    (step : rs.foldlM (BranchTable.addWrapped j) table = .ok next) :
    ∃ bs, List.Forall₂ (fun r b => r.wrapped? = some b) rs bs ∧
      Holds P R (sources ++ bs) next := by
  refine foldlM_invariant (fun seen t => ∃ bs,
    List.Forall₂ (fun r b => r.wrapped? = some b) seen bs ∧ Holds P R (sources ++ bs) t) step
    ⟨[], .nil, by simpa using h⟩ ?_
  rintro seen r rest t t' rfl ⟨bs, wrapped, holds⟩ step
  cases found : r.wrapped? with
  | none => rw [BranchTable.addWrapped, found] at step; cases step
  | some b =>
    rw [BranchTable.addWrapped, found] at step
    obtain ⟨tag, wraps⟩ := Record.wraps_of_wrapped? found
    refine ⟨bs ++ [b], List.rel_append wrapped (.cons found .nil), ?_⟩
    rw [← List.append_assoc]
    refine holds.add widens (good r (by simp) b found) wraps.isUnion_eq_false ?_ step
    intro isCompound s hs isCompound' same
    rcases List.mem_append.1 hs with hs | hs
    · rw [plain s hs] at isCompound'
      cases isCompound'
    · obtain ⟨q, hq, hqs⟩ := exists_left_of_mem wrapped hs
      obtain ⟨tag', wraps'⟩ := Record.wraps_of_wrapped? hqs
      have free : q.overlaps r = false :=
        (List.pairwise_append.1 apart).2.2 q hq r List.mem_cons_self
      refine wraps'.slot_ne wraps (named q (by simp [hq])) (named r (by simp)) free ?_ same
      intro number
      cases wraps' with
      | record => cases number
      | _ => cases isCompound'

/-- If the wrappers of records that do not overlap are in one slot, it is that of the numbers. -/
theorem Holds.eq_number {rs : List Record} {bs : List Schema} {k : Slot}
    (h : Holds P R (sources ++ bs) table) (several : rs.length ≠ 1)
    (wrapped : List.Forall₂ (fun r b => r.wrapped? = some b) rs bs)
    (named : ∀ r ∈ rs, r.FieldsNamed) (apart : rs.Pairwise fun r q => r.overlaps q = false)
    (only : ∀ l b, Keyed.get? l table = some b → l = k) : bs = [] ∨ k = .number := by
  cases wrapped with
  | nil => exact .inl rfl
  | @cons r b rs bs hr rest =>
    cases rest with
    | nil => exact absurd rfl several
    | @cons q b' rs bs hq rest =>
      obtain ⟨tag, wraps⟩ := Record.wraps_of_wrapped? hr
      obtain ⟨tag', wraps'⟩ := Record.wraps_of_wrapped? hq
      obtain ⟨d, found, _⟩ := h.covers b (by simp)
      obtain ⟨d', found', _⟩ := h.covers b' (by simp)
      have free : r.overlaps q = false := (List.pairwise_cons.1 apart).1 q (by simp)
      by_contra other
      refine wraps.slot_ne wraps' (named r (by simp)) (named q (by simp)) free ?_
        ((only _ _ found).trans (only _ _ found').symm)
      rw [only _ _ found]
      exact fun number => other (.inr number)

/-- The branches that records add to a table. -/
inductive Placement (table : BranchTable) : List Record → List Schema → Prop where
  | record {r : Record} (free : ∀ b, r.wrapped? = some b → Keyed.get? b.slot table = none) :
    Placement table [r] [r.schema]
  | held {r : Record} {b : Schema} (wrapped : r.wrapped? = some b)
    (held : (Keyed.get? b.slot table).isSome) : Placement table [r] [b]
  | wrapped {rs : List Record} {bs : List Schema} (several : rs.length ≠ 1)
    (wrapped : List.Forall₂ (fun r b => r.wrapped? = some b) rs bs) : Placement table rs bs

theorem Holds.addClusters {rs : List Record} (widens : Widens j P R) (h : Holds P R sources table)
    (plain : ∀ s ∈ sources, s.isCompound = false) (good : ∀ r ∈ rs, P r.schema)
    (good' : ∀ r ∈ rs, ∀ b, r.wrapped? = some b → P b) (named : ∀ r ∈ rs, r.FieldsNamed)
    (apart : rs.Pairwise fun r q => r.overlaps q = false)
    (step : table.addClusters j rs = .ok next) :
    ∃ bs, Placement table rs bs ∧ Holds P R (sources ++ bs) next := by
  have several (count : rs.length ≠ 1)
      (step : rs.foldlM (BranchTable.addWrapped j) table = .ok next) :
      ∃ bs, Placement table rs bs ∧ Holds P R (sources ++ bs) next := by
    obtain ⟨bs, wrapped, holds⟩ := h.addWrapped widens plain good' named apart step
    exact ⟨bs, .wrapped count wrapped, holds⟩
  match rs with
  | [] => exact several (by simp) step
  | r :: q :: rs => exact several (by simp) step
  | [r] =>
    have sole {b : Schema} (hb : P b) (flat : b.isUnion = false)
        (step : table.add j b = .ok next) : Holds P R (sources ++ [b]) next := by
      refine h.add widens hb flat (fun _ s hs isCompound => ?_) step
      rw [plain s hs] at isCompound
      cases isCompound
    change table.add j (soleBranch table r) = .ok next at step
    simp only [soleBranch] at step
    cases wrapped : r.wrapped? with
    | none =>
      simp only [wrapped] at step
      exact ⟨_, .record (by simp [wrapped]), sole (good r (by simp)) rfl step⟩
    | some b =>
      simp only [wrapped] at step
      obtain ⟨tag, wraps⟩ := Record.wraps_of_wrapped? wrapped
      split at step
      · next held =>
        exact ⟨_, .held wrapped held,
          sole (good' r (by simp) b wrapped) wraps.isUnion_eq_false step⟩
      · next free =>
        refine ⟨_, .record (fun c hc => ?_), sole (good r (by simp)) rfl step⟩
        cases wrapped.symm.trans hc
        simpa using free

/-- A table of branches is nothing, its only branch, or the union of its branches. -/
inductive Assembled (table : BranchTable) : Schema → Prop where
  | nothing (empty : table = []) : Assembled table null
  | only {b : Schema} (single : table = [(b.slot, b)]) : Assembled table b
  | union {bs : List Schema} (several : 2 ≤ table.length)
    (branches : bs.Perm (table.map Prod.snd)) (ascend : BranchesAscend bs)
    (distinct : (bs.map Schema.slot).Nodup) : Assembled table (.union bs)

theorem Holds.mem_iff (h : Holds P R sources table) {k : Slot} {b : Schema} :
    (k, b) ∈ table ↔ Keyed.get? k table = some b :=
  (Keyed.get?_eq_some_iff h.distinct).symm

theorem Holds.get?_of_single (h : Holds P R sources table) {d : Schema}
    (single : table = [(d.slot, d)]) {k : Slot} {b : Schema} :
    Keyed.get? k table = some b ↔ k = d.slot ∧ b = d := by
  rw [← h.mem_iff, single, List.mem_singleton, Prod.mk.injEq]

theorem Holds.map_slot (h : Holds P R sources table) :
    (table.map Prod.snd).map Schema.slot = table.map Prod.fst := by
  rw [List.map_map]
  exact List.map_congr_left fun (k, b) hmem => h.slot k b (h.mem_iff.1 hmem)

theorem Holds.isUnion_eq_false (h : Holds P R sources table) :
    ∀ b ∈ table.map Prod.snd, b.isUnion = false := by
  intro b hb
  obtain ⟨⟨k, c⟩, hmem, rfl⟩ := List.mem_map.1 hb
  exact h.flat k c (h.mem_iff.1 hmem)

theorem Holds.assembled (h : Holds P R sources table) : Assembled table table.schema := by
  unfold BranchTable.schema
  split
  · next empty => exact .nothing (List.map_eq_nil_iff.1 empty)
  · next b single =>
    obtain ⟨⟨k, c⟩, rfl, rfl⟩ := List.map_eq_singleton_iff.1 single
    refine .only ?_
    rw [h.slot k c (h.mem_iff.1 List.mem_cons_self)]
  · next none one =>
    obtain ⟨bs, heq, perm, ascend⟩ := unionOf_of_flat h.isUnion_eq_false
    rw [heq]
    refine .union ?_ perm ascend ?_
    · match table with
      | [] => exact absurd rfl none
      | [e] => exact absurd rfl (one e.2)
      | _ :: _ :: _ => simp
    · refine (perm.map Schema.slot).nodup_iff.2 ?_
      rw [h.map_slot]
      exact h.distinct

end Holds

end BranchTable

end SchemaInference
