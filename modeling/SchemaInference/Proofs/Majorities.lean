import SchemaInference.Join.Majority
import SchemaInference.Proofs.Everywhere

/-!
# Majorities

What the majority of a collection is, by the first member of its most frequent family.
What holds of every part of the types and looks neither at item types nor at fields, their
order apart, holds of every part of their majority.
-/

namespace SchemaInference

open Schema

section Frequency
variable {α κ : Type} [DecidableEq κ] {ks : List κ} {k : κ} {key : α → κ} {xs : List α}

theorem foldl_max_spec (ns : List Nat) (start : Nat) :
    (ns.foldl max start = start ∨ ns.foldl max start ∈ ns) ∧
      start ≤ ns.foldl max start ∧ ∀ n ∈ ns, n ≤ ns.foldl max start := by
  induction ns generalizing start with
  | nil => simp
  | cons n rest ih =>
    obtain ⟨reached, above, bound⟩ := ih (max start n)
    rw [List.foldl_cons, List.forall_mem_cons, List.mem_cons]
    refine ⟨?_, by omega, by omega, bound⟩
    rcases reached with start | later
    · omega
    · exact .inr (.inr later)

/-- The most frequent key is the first of those than which none is more frequent. -/
theorem mostFrequent?_eq_some_iff : mostFrequent? ks = some k ↔
    (∀ l, ks.count l ≤ ks.count k) ∧ (ks.find? fun l => ks.count l = ks.count k) = some k := by
  obtain ⟨reached, -, bound⟩ := foldl_max_spec (ks.map fun l => ks.count l) 0
  unfold mostFrequent?
  dsimp only
  generalize (ks.map fun l => ks.count l).foldl max 0 = top at reached bound ⊢
  have bound (l : κ) : ks.count l ≤ top := by
    by_cases mem : l ∈ ks
    · exact bound _ (List.mem_map_of_mem mem)
    · rw [List.count_eq_zero_of_not_mem mem]
      exact Nat.zero_le top
  constructor
  · intro found
    have count : ks.count k = top := by simpa using List.find?_some found
    exact ⟨fun l => count ▸ bound l, count ▸ found⟩
  · intro h
    obtain ⟨most, found⟩ := h
    have count : ks.count k = top := by
      apply Nat.le_antisymm (bound k)
      rcases reached with rfl | mem
      · exact Nat.zero_le _
      · obtain ⟨l, -, rfl⟩ := List.mem_map.1 mem
        exact most l
    exact count ▸ found

theorem exists_mostFrequent? (nonempty : ks ≠ []) : ∃ k, mostFrequent? ks = some k := by
  obtain ⟨k, hk⟩ := List.exists_mem_of_ne_nil ks nonempty
  obtain ⟨reached, -, bound⟩ := foldl_max_spec (ks.map fun l => ks.count l) 0
  -- some key is in the list, so that the highest count is not the one to start from
  have positive := Nat.lt_of_lt_of_le (List.count_pos_iff.2 hk)
    (bound _ (List.mem_map_of_mem hk))
  obtain ⟨l, hl, count⟩ := List.mem_map.1 (reached.resolve_left (Nat.ne_of_gt positive))
  exact Option.isSome_iff_exists.1 (List.find?_isSome.2 ⟨l, hl, decide_eq_true count⟩)

theorem mostFrequent?_replicate (n : Nat) (k : κ) :
    mostFrequent? (List.replicate (n + 1) k) = some k := by
  refine mostFrequent?_eq_some_iff.2 ⟨fun l => ?_, by simp [List.replicate_succ]⟩
  by_cases heq : k = l
  · exact heq ▸ Nat.le_refl _
  · rw [List.count_replicate, if_neg (by simpa using heq)]
    exact Nat.zero_le _

theorem majorityBy_ne_nil (nonempty : xs ≠ []) : majorityBy key xs ≠ [] := by
  obtain ⟨k, found⟩ := exists_mostFrequent? (by simpa using nonempty : xs.map key ≠ [])
  obtain ⟨x, hx, rfl⟩ := List.mem_map.1 (List.mem_of_find?_eq_some found)
  unfold majorityBy
  rw [found]
  exact List.ne_nil_of_mem (List.mem_filter.2 ⟨hx, decide_eq_true rfl⟩)

theorem majorityBy_eq_filter (h : mostFrequent? (xs.map key) = some k) :
    majorityBy key xs = xs.filter fun x => key x = k := by
  simp only [majorityBy, h]

theorem mostFrequent?_of_mem_majorityBy {x : α} (h : x ∈ majorityBy key xs) :
    mostFrequent? (xs.map key) = some (key x) := by
  cases found : mostFrequent? (xs.map key) with
  | none => simp [majorityBy, found] at h
  | some k =>
    rw [majorityBy_eq_filter found, List.mem_filter, decide_eq_true_eq] at h
    rw [h.2]

theorem key_eq_of_mem_majorityBy {x y : α} (hx : x ∈ majorityBy key xs)
    (hy : y ∈ majorityBy key xs) : key x = key y := by
  have same := (mostFrequent?_of_mem_majorityBy hx).symm.trans (mostFrequent?_of_mem_majorityBy hy)
  exact Option.some.inj same

theorem majorityBy_eq_self
    (same : ∀ x ∈ xs, ∀ y ∈ xs, key x = key y) : majorityBy key xs = xs := by
  cases xs with
  | nil => rfl
  | cons x rest =>
    have keys : (x :: rest).map key = List.replicate (rest.length + 1) (key x) := by
      refine List.eq_replicate_iff.2 ⟨by simp, fun k hk => ?_⟩
      obtain ⟨y, hy, rfl⟩ := List.mem_map.1 hk
      exact same y hy x List.mem_cons_self
    unfold majorityBy
    rw [keys, mostFrequent?_replicate]
    apply List.filter_eq_self.2
    intro y hy
    simpa using same y hy x List.mem_cons_self

end Frequency

theorem names_putField (name : Text) (t : Schema) (fields : List (Text × Schema)) :
    (Record.putField name t fields).map Prod.fst = insertName name (fields.map Prod.fst) := by
  induction fields with
  | nil => rfl
  | cons field rest ih =>
    obtain ⟨other, s⟩ := field
    simp only [Record.putField, List.map_cons, insertName]
    split
    · rfl
    split
    · next heq => rw [List.map_cons, heq]
    · rw [List.map_cons, ih]

theorem fieldNames_pairwise (fields : List (Text × Schema)) :
    (fieldNames fields).Pairwise (· < ·) := by
  -- the names are those of ascending fields
  obtain ⟨sorted, asc, names⟩ : ∃ sorted : List (Text × Schema), Ascending sorted ∧
      fieldNames fields = sorted.map Prod.fst := by
    induction fields with
    | nil => exact ⟨[], .nil, rfl⟩
    | cons field rest ih =>
      obtain ⟨sorted, asc, names⟩ := ih
      refine ⟨Record.putField field.1 field.2 sorted, Record.ascending_putField _ _ asc, ?_⟩
      rw [names_putField, ← names]
      rfl
  rw [names]
  exact List.pairwise_map.2 asc

theorem mem_insertName {f name : Text} {names : List Text} :
    f ∈ insertName name names ↔ f = name ∨ f ∈ names := by
  induction names with
  | nil => simp [insertName]
  | cons other rest ih =>
    simp only [insertName]
    split
    · simp
    split
    · next heq => simp [heq]
    · simp only [List.mem_cons, ih]
      grind

theorem mem_fieldNames {fields : List (Text × Schema)} {f : Text} :
    f ∈ fieldNames fields ↔ (fields.lookup f).isSome := by
  induction fields with
  | nil => simp [fieldNames]
  | cons field rest ih =>
    change f ∈ insertName field.1 (fieldNames rest) ↔ _
    rw [mem_insertName, lookup_cons_ite, ih]
    by_cases heq : f = field.1 <;> simp [heq]

theorem fieldNames_eq_of_ascending {fs : List (Text × Schema)} (asc : Ascending fs) :
    fieldNames fs = fs.map Prod.fst := by
  induction fs with
  | nil => rfl
  | cons entry rest ih =>
    obtain ⟨least, later⟩ := List.pairwise_cons.1 asc
    change insertName entry.1 (fieldNames rest) = entry.1 :: rest.map Prod.fst
    rw [ih later]
    cases rest with
    | nil => rfl
    | cons next rest =>
      have before : entry.1 < next.1 := least next List.mem_cons_self
      simp [insertName, before]

theorem lookup_map_names (type : Text → Schema) (names : List Text) (f : Text) :
    (names.map fun g => (g, type g)).lookup f = if f ∈ names then some (type f) else none := by
  induction names with
  | nil => rfl
  | cons g rest ih =>
    rw [List.map_cons, lookup_cons_ite, ih]
    by_cases h : f = g
    · simp [h]
    · simp [h]

namespace Record
variable {r q : Record} {type : Text → Schema} {f : Text}

/-- The record with the fields of `r`, each of the type that `type` has for its name. -/
def retyped (r : Record) (type : Text → Schema) : Record :=
  ⟨r.name, r.names.map fun f => (f, type f)⟩

theorem ascending_retyped : Ascending (r.retyped type).fields :=
  List.pairwise_map.2 (fieldNames_pairwise r.fields)

theorem names_retyped : (r.retyped type).names = r.names := by
  rw [names, fieldNames_eq_of_ascending ascending_retyped, retyped, List.map_map]
  exact List.map_id r.names

theorem field?_retyped : (r.retyped type).field? f = if f ∈ r.names then some (type f) else none :=
  lookup_map_names type r.names f

theorem field?_retyped_eq_some {t : Schema} :
    (r.retyped type).field? f = some t ↔ f ∈ r.names ∧ type f = t := by
  rw [field?_retyped]
  split <;> simp [*]

theorem isSome_field?_retyped : ((r.retyped type).field? f).isSome ↔ f ∈ r.names := by
  rw [field?_retyped]
  split <;> simp [*]

theorem retyped_congr {type' : Text → Schema} (name : q.name = r.name) (names : q.names = r.names)
    (types : ∀ f ∈ r.names, type f = type' f) : q.retyped type = r.retyped type' := by
  rw [retyped, retyped, name, names]
  exact congrArg (mk r.name) (List.map_congr_left fun f hf => congrArg (Prod.mk f) (types f hf))

end Record

theorem shapeMajority_ne_nil {r : Record} {ts : List Schema} (h : r.schema ∈ ts) :
    shapeMajority ts ≠ [] :=
  majorityBy_ne_nil (List.ne_nil_of_mem (mem_filterMap_record?.2 h))

theorem isSome_field?_of_mem_shapeMajority {r q : Record} {ts : List Schema} {f : Text}
    (hr : r ∈ shapeMajority ts) (hq : q ∈ shapeMajority ts) (hf : f ∈ r.names) :
    (q.field? f).isSome := by
  rw [key_eq_of_mem_majorityBy hr hq] at hf
  exact mem_fieldNames.1 hf

section Families
variable {s t : Schema} {ts : List Schema}

theorem family_eq_null_iff : s.family = .null ↔ s = null := by
  cases s with
  | primitive k => cases k <;> simp [family]
  | _ => simp [family]

theorem family_eq_number_iff : s.family = .number ↔ ∃ k, s = .primitive k ∧ k.isNumeric = true := by
  cases s with
  | primitive k => cases k <;> simp [family, Kind.isNumeric, Kind.width?]
  | _ => simp [family]

theorem ne_null_of_mem_familyMajority (h : t ∈ familyMajority ts) : t ≠ null := by
  simpa using (List.mem_filter.1 (mem_of_mem_majorityBy h)).2

theorem family_eq_of_mem (hs : s ∈ familyMajority ts) (ht : t ∈ familyMajority ts) :
    s.family = t.family :=
  key_eq_of_mem_majorityBy hs ht

end Families

section Equations
variable {ts rest : List Schema} {name : Text} {fields : List (Text × Schema)}

theorem majority_eq_null (none : familyMajority ts = []) : majority ts = .null := by
  rw [majority]
  split <;> simp_all

theorem majority_eq_primitive {k : Kind} (members : familyMajority ts = .primitive k :: rest) :
    majority ts = if k.isNumeric then .primitive ((rest.filterMap kind?).foldl Kind.widest k)
      else .primitive k := by
  rw [majority]
  split <;> simp_all

theorem majority_eq_array {n : Option Text} {items : Schema}
    (members : familyMajority ts = .array n items :: rest) :
    majority ts = .array n (majority ((.array n items :: rest).filterMap items?)) := by
  rw [majority]
  split <;> simp_all

theorem majority_eq_record {r : Record} {others : List Record}
    (members : familyMajority ts = .record name fields :: rest)
    (group : shapeMajority (.record name fields :: rest) = r :: others) :
    majority ts = (r.retyped fun f => majority ((r :: others).filterMap (·.field? f))).schema := by
  rw [majority]
  split <;> simp_all
  all_goals split <;> simp_all [Record.retyped, Record.schema]

theorem majority_eq_null_of_record (members : familyMajority ts = .record name fields :: rest)
    (none : shapeMajority (.record name fields :: rest) = []) : majority ts = .null := by
  rw [majority]
  split <;> simp_all
  all_goals split <;> simp_all

theorem majority_eq_union {branches : List Schema}
    (members : familyMajority ts = .union branches :: rest) : majority ts = .union branches := by
  rw [majority]
  split <;> simp_all

end Equations

/-- What is said of the parts of the types, whatever their items and ascending fields are. -/
theorem everywhere_majority {p : Schema → Prop} (primitive : ∀ k, p (.primitive k))
    (array : ∀ n s t, p (.array n s) → p (.array n t))
    (record : ∀ n fs, Ascending fs → p (.record n fs))
    {ts : List Schema} (all : ∀ t ∈ ts, t.Everywhere p) : (majority ts).Everywhere p := by
  induction ts using majority.induct with
  | case1 ts none =>
    rw [majority_eq_null none]
    exact everywhere_primitive.2 (primitive _)
  | case2 ts k rest members numeric =>
    rw [majority_eq_primitive members, if_pos numeric]
    exact everywhere_primitive.2 (primitive _)
  | case3 ts k rest members other =>
    rw [majority_eq_primitive members, if_neg other]
    exact everywhere_primitive.2 (primitive _)
  | case4 ts n items rest members ih =>
    have mem (t : Schema) (ht : t ∈ .array n items :: rest) : t ∈ ts :=
      mem_of_mem_familyMajority (members ▸ ht)
    rw [majority_eq_array members]
    refine everywhere_array.2 ⟨array n items _ (all _ (mem _ List.mem_cons_self)).self, ih ?_⟩
    intro t ht
    obtain ⟨a, ha, hat⟩ := List.mem_filterMap.1 ht
    cases a with
    | array m items =>
      cases hat
      exact (all _ (mem _ ha)).items
    | _ => cases hat
  | case5 ts n fields rest members none =>
    rw [majority_eq_null_of_record members none]
    exact everywhere_primitive.2 (primitive _)
  | case6 ts n fields rest members r others group ih =>
    rw [majority_eq_record members group]
    refine everywhere_record.2 ⟨record _ _ Record.ascending_retyped, fun f t hmem => ?_⟩
    have found := Record.ascending_retyped.lookup_eq_some_iff.2 hmem
    obtain ⟨_, rfl⟩ := Record.field?_retyped_eq_some.1 found
    apply ih
    intro t ht
    obtain ⟨q, hq, found⟩ := List.mem_filterMap.1 ht
    have hq := schema_mem_of_mem_shapeMajority (group ▸ hq)
    exact (all _ (mem_of_mem_familyMajority (members ▸ hq))).field found
  | case7 ts branches rest members =>
    rw [majority_eq_union members]
    exact all _ (mem_of_mem_familyMajority (members ▸ List.mem_cons_self))

end SchemaInference
