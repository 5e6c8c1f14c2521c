import SchemaInference.Join.Union

/-!
# Lenient joins

A collection of types is resolved by majority, nulls being ignored: the most frequent
family wins, and of equally frequent ones the first.  Numbers widen, arrays resolve
the types of all items, and records keep the most frequent set of field names and
resolve every field over the records that have that set.  The parts that are resolved
next are lower than the types they come from, so resolving ends.

`Lenient.resolve` looks all of this up, and a lookup that finds nothing is a fault.  The
type that it gives is `majority`, which no fault keeps it from: see `Lenient.resolve_eq`.
-/

namespace SchemaInference

/-- The most frequent element of a list, the first of those that are equally frequent. -/
def mostFrequent? {α : Type} [DecidableEq α] (xs : List α) : Option α :=
  let top := (xs.map fun x => xs.count x).foldl max 0
  xs.find? fun x => xs.count x = top

/-- The elements whose key is the most frequent one. -/
def majorityBy {α κ : Type} [DecidableEq κ] (key : α → κ) (xs : List α) : List α :=
  match mostFrequent? (xs.map key) with
  | none => []
  | some k => xs.filter fun x => key x = k

theorem mem_of_mem_majorityBy {α κ : Type} [DecidableEq κ] {key : α → κ} {xs : List α} {x : α}
    (h : x ∈ majorityBy key xs) : x ∈ xs := by
  unfold majorityBy at h
  split at h
  · cases h
  · exact (List.mem_filter.1 h).1

def Schema.kind? : Schema → Option Kind
  | .primitive kind => some kind
  | _ => none

def Schema.items? : Schema → Option Schema
  | .array _ items => some items
  | _ => none

/-- The name and the items of an array. -/
def Schema.array? : Schema → Option (Option Text × Schema)
  | .array name items => some (name, items)
  | _ => none

namespace Schema

theorem height_le_branchesHeight {t : Schema} {ts : List Schema} (h : t ∈ ts) :
    t.height ≤ branchesHeight ts := by
  induction ts with
  | nil => cases h
  | cons s ts ih =>
      simp only [branchesHeight]
      rcases List.mem_cons.1 h with rfl | h
      · omega
      · have := ih h; omega

theorem branchesHeight_lt {ts : List Schema} {n : Nat} (pos : 0 < n)
    (h : ∀ t ∈ ts, t.height < n) : branchesHeight ts < n := by
  induction ts with
  | nil => simpa [branchesHeight] using pos
  | cons t ts ih =>
      have ht := h t (by simp)
      have hts := ih fun s hs => h s (by simp [hs])
      simp only [branchesHeight]
      omega

theorem height_lookup_le {name : Text} {t : Schema} {fields : List (Text × Schema)}
    (h : fields.lookup name = some t) : t.height ≤ fieldsHeight fields := by
  induction fields with
  | nil => cases h
  | cons f fields ih =>
      obtain ⟨other, s⟩ := f
      simp only [List.lookup_cons] at h
      simp only [fieldsHeight]
      split at h
      · cases h; omega
      · have := ih h; omega

end Schema

/-- The members of the most frequent family among the types that are not null. -/
def familyMajority (ts : List Schema) : List Schema :=
  majorityBy Schema.family (ts.filter (· ≠ .null))

theorem mem_of_mem_familyMajority {t : Schema} {ts : List Schema} (h : t ∈ familyMajority ts) :
    t ∈ ts := (List.mem_filter.1 (mem_of_mem_majorityBy h)).1

/-- The records of the most frequent set of field names. -/
def shapeMajority (ts : List Schema) : List Record :=
  majorityBy Record.names (ts.filterMap Schema.record?)

theorem schema_mem_of_mem_shapeMajority {r : Record} {ts : List Schema}
    (h : r ∈ shapeMajority ts) : r.schema ∈ ts :=
  Schema.mem_filterMap_record?.1 (mem_of_mem_majorityBy h)

theorem branchesHeight_items_lt {members ts : List Schema} (sub : ∀ t ∈ members, t ∈ ts)
    {n : Option Text} {s : Schema} (h : .array n s ∈ members) :
    Schema.branchesHeight (members.filterMap Schema.items?) < Schema.branchesHeight ts := by
  have hs := Schema.height_le_branchesHeight (sub _ h)
  simp only [Schema.height] at hs
  refine Schema.branchesHeight_lt (by omega) fun t ht => ?_
  obtain ⟨a, ha, hat⟩ := List.mem_filterMap.1 ht
  cases a with
  | array m items =>
      cases hat
      have := Schema.height_le_branchesHeight (sub _ ha)
      simp only [Schema.height] at this
      omega
  | _ => cases hat

theorem branchesHeight_column_lt {group : List Record} {ts : List Schema}
    (sub : ∀ r ∈ group, r.schema ∈ ts) {r : Record} (h : r ∈ group) (name : Text) :
    Schema.branchesHeight (group.filterMap (·.field? name)) < Schema.branchesHeight ts := by
  have height_eq : ∀ r : Record, r.schema.height = Schema.fieldsHeight r.fields + 1 := by
    intro r; simp only [Record.schema, Schema.height]
  have hr := Schema.height_le_branchesHeight (sub _ h)
  rw [height_eq] at hr
  refine Schema.branchesHeight_lt (by omega) fun t ht => ?_
  obtain ⟨q, hq, hqt⟩ := List.mem_filterMap.1 ht
  have h₁ := Schema.height_le_branchesHeight (sub _ hq)
  have h₂ := Schema.height_lookup_le hqt
  rw [height_eq] at h₁
  omega

/-- The type on which the majority of a collection of types agrees. -/
def majority (ts : List Schema) : Schema :=
  match _members : familyMajority ts with
  | [] => .null
  | .primitive k :: rest =>
    if k.isNumeric then .primitive ((rest.filterMap Schema.kind?).foldl Kind.widest k)
    else .primitive k
  | .array name items :: rest =>
    .array name (majority ((.array name items :: rest).filterMap Schema.items?))
  | .record name fields :: rest =>
    match _group : shapeMajority (.record name fields :: rest) with
    -- some set of names is the most frequent one: see `shapeMajority_ne_nil`
    | [] => .null
    | r :: others =>
      .record r.name (r.names.map fun f => (f, majority ((r :: others).filterMap (·.field? f))))
  | .union branches :: _ => .union branches
termination_by Schema.branchesHeight ts
decreasing_by
  · refine branchesHeight_items_lt (fun t ht => mem_of_mem_familyMajority (_members ▸ ht))
      List.mem_cons_self
  · refine branchesHeight_column_lt (fun q hq => ?_) List.mem_cons_self f
    exact mem_of_mem_familyMajority (_members ▸ schema_mem_of_mem_shapeMajority (_group ▸ hq))

namespace Lenient

/-- The most frequent key of a list, with the elements that have it. -/
def elect {α κ : Type} [DecidableEq κ] (key : α → κ) (xs : List α) : Except Fault (κ × List α) :=
  (Fault.nothing.demand (mostFrequent? (xs.map key))).map fun k =>
    (k, xs.filter fun x => key x = k)

theorem majorityBy_of_elect {α κ : Type} [DecidableEq κ] {key : α → κ} {xs ys : List α} {k : κ}
    (h : elect key xs = .ok (k, ys)) : majorityBy key xs = ys := by
  unfold elect at h
  unfold majorityBy
  cases found : mostFrequent? (xs.map key) with
  | none =>
    rw [found] at h
    cases h
  | some k' =>
    rw [found] at h
    cases h
    rfl

theorem filterMap_of_mapM {α β : Type} {fault : α → Fault} {find : α → Option β} {xs : List α}
    {ys : List β} (h : (xs.mapM fun x => (fault x).demand (find x)) = .ok ys) :
    xs.filterMap find = ys := by
  induction xs generalizing ys with
  | nil =>
    cases h
    rfl
  | cons x rest ih =>
    rw [List.mapM_cons] at h
    cases found : find x with
    | none =>
      rw [found] at h
      cases h
    | some y =>
      rw [found] at h
      cases later : rest.mapM fun x => (fault x).demand (find x) with
      | error e =>
        rw [later] at h
        cases h
      | ok zs =>
        rw [later] at h
        cases h
        rw [List.filterMap_cons_some found, ih later]

theorem filterMap_items? (ts : List Schema) :
    ts.filterMap Schema.items? = (ts.filterMap Schema.array?).map Prod.snd := by
  have items?_eq : ∀ t : Schema, t.items? = t.array?.map Prod.snd := by
    intro t
    cases t <;> rfl
  rw [List.map_filterMap, funext items?_eq]

/-- The widest of the kinds of numbers. -/
def widest (numbers : List Schema) : Except Fault Schema := do
  let kinds ← numbers.mapM fun t => (Fault.noPart t).demand (t.kind?.filter Kind.isNumeric)
  match kinds with
  | [] => .error .nothing
  | k :: rest => .ok (.primitive (rest.foldl Kind.widest k))

/-- The type on which the majority of a collection of types agrees, all that it needs looked up. -/
def resolve (ts : List Schema) : Except Fault Schema :=
  if ts.filter (· ≠ .null) = [] then .ok .null
  else match _members : elect Schema.family (ts.filter (· ≠ .null)) with
  | .error fault => .error fault
  | .ok (.number, numbers) => widest numbers
  | .ok (.array, arrays) =>
    match _parts : arrays.mapM fun t => (Fault.noPart t).demand t.array? with
    | .error fault => .error fault
    | .ok [] => .error .nothing
    | .ok ((name, items) :: rest) =>
      (resolve (items :: rest.map Prod.snd)).map (.array name)
  | .ok (.record, members) =>
    match _records : members.mapM fun t => (Fault.noPart t).demand t.record? with
    | .error fault => .error fault
    | .ok records =>
      match _group : elect Record.names records with
      | .error fault => .error fault
      | .ok (_, []) => .error .nothing
      | .ok (names, first :: others) => do
        let fields ← names.mapM fun f =>
          match _column : (first :: others).mapM fun r => (Fault.noField f).demand (r.field? f) with
          | .error fault => .error fault
          | .ok column => (resolve column).map (f, ·)
        return .record first.name fields
  | .ok (_, members) => Fault.nothing.demand members.head?
termination_by Schema.branchesHeight ts
decreasing_by
  · have same := filterMap_of_mapM _parts
    have parts : items :: rest.map Prod.snd = arrays.filterMap Schema.items? := by
      rw [filterMap_items?, same]
      rfl
    obtain ⟨t, ht, found⟩ := List.mem_filterMap.1 (same ▸ List.mem_cons_self :
      (name, items) ∈ arrays.filterMap Schema.array?)
    rw [parts]
    cases t with
    | array n s =>
      have elected : familyMajority ts = arrays := majorityBy_of_elect _members
      exact branchesHeight_items_lt (fun t ht => mem_of_mem_familyMajority (elected ▸ ht)) ht
    | _ => cases found
  · rw [← filterMap_of_mapM _column]
    refine branchesHeight_column_lt (fun q hq => ?_) List.mem_cons_self f
    have hq : q ∈ members.filterMap Schema.record? :=
      filterMap_of_mapM _records ▸ mem_of_mem_majorityBy (majorityBy_of_elect _group ▸ hq)
    have elected : familyMajority ts = members := majorityBy_of_elect _members
    exact mem_of_mem_familyMajority (elected ▸ Schema.mem_filterMap_record?.1 hq)

/-- The join of the types of a collection. -/
def joinAll (ts : List Schema) : Except Disagreement Schema :=
  (resolve ts).mapError .unresolved

/-- The join of two types; it is missing only where a string or an array meets another type. -/
def join (a b : Schema) : Except Disagreement Schema :=
  if a = b then .ok a
  else if a = .null then .ok b
  else if b = .null then .ok a
  -- of two families none is more frequent, and the first one wins
  else if a.isCompound || b.isCompound then joinAll [a, b]
  else match a, b with
    | .array n s, .array m t => (join s t).map (.array (if n = m then n else none))
    | .primitive k, .primitive l =>
      match k.join? .lenient l with
      | some joined => .ok (.primitive joined)
      | none => .error (.incompatible (.primitive k) (.primitive l))
    | a, b => .error (.incompatible a b)

end Lenient

end SchemaInference
