import SchemaInference.Proofs.Folds
import SchemaInference.Proofs.Majorities

/-!
# Majorities are found

Resolving a collection looks up the winner of a vote, the parts of its members and the
columns of their fields.  The members of a majority are there and are of one family, and
the records of a majority all have the fields of the first, so that no lookup fails and
what is found is `majority`.
-/

namespace SchemaInference.Lenient

open Schema

section Lookups
variable {α β κ : Type} [DecidableEq κ] {key : α → κ} {xs rest : List α} {x : α}

theorem elect_eq (h : majorityBy key xs = x :: rest) :
    elect key xs = .ok (key x, x :: rest) := by
  unfold majorityBy at h
  cases found : mostFrequent? (xs.map key) with
  | none =>
    rw [found] at h
    cases h
  | some k =>
    rw [found] at h
    change (xs.filter fun y => key y = k) = x :: rest at h
    have hx : x ∈ xs.filter fun y => key y = k := h ▸ List.mem_cons_self
    have hk : key x = k := of_decide_eq_true (List.mem_filter.1 hx).2
    unfold elect
    rw [found, hk, ← h]
    rfl

theorem mapM_demand {fault : α → Fault} {find : α → Option β}
    (found : ∀ x ∈ xs, (find x).isSome) :
    (xs.mapM fun x => (fault x).demand (find x)) = .ok (xs.filterMap find) := by
  induction xs with
  | nil => rfl
  | cons x rest ih =>
    obtain ⟨here, later⟩ := List.forall_mem_cons.1 found
    obtain ⟨y, hy⟩ := Option.isSome_iff_exists.1 here
    rw [List.mapM_cons, hy, ih later, List.filterMap_cons_some hy]
    rfl

end Lookups

section Equations
variable {ts members : List Schema} {winner : Family}

theorem filter_ne_nil_of_elect
    (elected : elect family (ts.filter (· ≠ .null)) = .ok (winner, members)) :
    ts.filter (· ≠ .null) ≠ [] := by
  intro none
  rw [none] at elected
  cases elected

theorem resolve_eq_null (none : ts.filter (· ≠ .null) = []) : resolve ts = .ok .null := by
  rw [resolve, if_pos none]

theorem resolve_eq_widest
    (elected : elect family (ts.filter (· ≠ .null)) = .ok (.number, members)) :
    resolve ts = widest members := by
  rw [resolve, if_neg (filter_ne_nil_of_elect elected)]
  split <;> rename_i h <;> rw [elected] at h <;> cases h
  · rfl
  · contradiction

theorem resolve_eq_array {name : Option Text} {items : Schema} {rest : List (Option Text × Schema)}
    (elected : elect family (ts.filter (· ≠ .null)) = .ok (.array, members))
    (parts : (members.mapM fun t => (Fault.noPart t).demand t.array?) =
      .ok ((name, items) :: rest)) :
    resolve ts = (resolve (items :: rest.map Prod.snd)).map (.array name) := by
  rw [resolve, if_neg (filter_ne_nil_of_elect elected)]
  split <;> rename_i h <;> rw [elected] at h <;> cases h
  · split <;> rename_i h <;> rw [parts] at h <;> cases h
    rfl
  · contradiction

theorem resolve_eq_record {names : List Text} {records : List Record} {first : Record}
    {others : List Record}
    (elected : elect family (ts.filter (· ≠ .null)) = .ok (.record, members))
    (parts : (members.mapM fun t => (Fault.noPart t).demand t.record?) = .ok records)
    (group : elect Record.names records = .ok (names, first :: others)) :
    resolve ts = (names.mapM fun f => do
      let column ← (first :: others).mapM fun r : Record => (Fault.noField f).demand (r.field? f)
      (resolve column).map (f, ·)).map (.record first.name) := by
  rw [resolve, if_neg (filter_ne_nil_of_elect elected)]
  split <;> rename_i h <;> rw [elected] at h <;> cases h
  · split <;> rename_i h <;> rw [parts] at h <;> cases h
    split <;> rename_i h <;> rw [group] at h <;> cases h
    refine congrArg (Except.map (record first.name)) (congrArg (names.mapM ·) (funext fun f => ?_))
    split <;> rename_i h <;> rw [h] <;> rfl
  · contradiction

theorem resolve_eq_first {first : Schema} {rest : List Schema}
    (elected : elect family (ts.filter (· ≠ .null)) = .ok (winner, first :: rest))
    (number : winner ≠ .number) (array : winner ≠ .array) (record : winner ≠ .record) :
    resolve ts = .ok first := by
  rw [resolve, if_neg (filter_ne_nil_of_elect elected)]
  split <;> rename_i h <;> rw [elected] at h <;> cases h <;> first | contradiction | rfl

end Equations

section Families
variable {ts rest : List Schema}

theorem family_eq_of_mem_cons {first t : Schema} (members : familyMajority ts = first :: rest)
    (ht : t ∈ first :: rest) : t.family = first.family :=
  family_eq_of_mem (members ▸ ht) (members ▸ List.mem_cons_self)

theorem resolve_numbers {k : Kind} (members : familyMajority ts = .primitive k :: rest)
    (numeric : k.isNumeric = true) :
    resolve ts = .ok (.primitive ((rest.filterMap kind?).foldl Kind.widest k)) := by
  have number : (primitive k).family = .number := family_eq_number_iff.2 ⟨k, rfl, numeric⟩
  have numbers (t : Schema) (ht : t ∈ primitive k :: rest) :
      ∃ l, t = .primitive l ∧ l.isNumeric = true :=
    family_eq_number_iff.1 ((family_eq_of_mem_cons members ht).trans number)
  have same (t : Schema) (ht : t ∈ primitive k :: rest) :
      t.kind?.filter Kind.isNumeric = t.kind? := by
    obtain ⟨l, rfl, hl⟩ := numbers t ht
    simp [kind?, hl]
  have kinds : ((primitive k :: rest).mapM fun t =>
      (Fault.noPart t).demand (t.kind?.filter Kind.isNumeric)) =
        .ok (k :: rest.filterMap kind?) := by
    rw [mapM_demand, List.filterMap_congr same]
    · rfl
    · intro t ht
      rw [same t ht]
      obtain ⟨l, rfl, -⟩ := numbers t ht
      rfl
  rw [resolve_eq_widest (number ▸ elect_eq members), widest, kinds]
  rfl

theorem resolve_arrays {name : Option Text} {items : Schema}
    (members : familyMajority ts = .array name items :: rest)
    (below : resolve ((.array name items :: rest).filterMap items?) =
      .ok (majority ((.array name items :: rest).filterMap items?))) :
    resolve ts = .ok (.array name (majority ((.array name items :: rest).filterMap items?))) := by
  have parts : ((Schema.array name items :: rest).mapM fun t => (Fault.noPart t).demand t.array?) =
      .ok ((name, items) :: rest.filterMap array?) := by
    apply mapM_demand
    intro t ht
    have array := family_eq_of_mem_cons members ht
    cases t with
    | array m s => rfl
    | primitive l => cases l <;> cases array
    | _ => cases array
  have same : items :: (rest.filterMap array?).map Prod.snd =
      (Schema.array name items :: rest).filterMap items? := by
    rw [filterMap_items?]
    rfl
  rw [resolve_eq_array (elect_eq members) parts, same, below]
  rfl

theorem resolve_records {name : Text} {fields : List (Text × Schema)} {r : Record}
    {others : List Record} (members : familyMajority ts = .record name fields :: rest)
    (group : shapeMajority (.record name fields :: rest) = r :: others)
    (below : ∀ f, resolve ((r :: others).filterMap (·.field? f)) =
      .ok (majority ((r :: others).filterMap (·.field? f)))) :
    resolve ts =
      .ok (r.retyped fun f => majority ((r :: others).filterMap (·.field? f))).schema := by
  have parts : ((Schema.record name fields :: rest).mapM fun t =>
      (Fault.noPart t).demand t.record?) =
        .ok ((Schema.record name fields :: rest).filterMap record?) := by
    apply mapM_demand
    intro t ht
    have record := family_eq_of_mem_cons members ht
    cases t with
    | record n fs => rfl
    | primitive l => cases l <;> cases record
    | _ => cases record
  rw [resolve_eq_record (elect_eq members) parts (elect_eq group)]
  refine congrArg (Except.map _) (mapM_eq_ok.2 ?_)
  apply List.forall₂_map_right_iff.2
  apply List.forall₂_same.2
  intro f hf
  -- the members of the group have the names of its first
  have found (q : Record) (hq : q ∈ r :: others) : (q.field? f).isSome :=
    isSome_field?_of_mem_shapeMajority (group ▸ List.mem_cons_self) (group ▸ hq) hf
  rw [mapM_demand found]
  exact congrArg (Except.map (f, ·)) (below f)

end Families

/-- Resolving finds the majority of whatever types, so that none of its lookups fails. -/
theorem resolve_eq (ts : List Schema) : resolve ts = .ok (majority ts) := by
  induction ts using majority.induct with
  | case1 ts none =>
    rw [majority_eq_null none]
    apply resolve_eq_null
    by_contra nonempty
    exact majorityBy_ne_nil nonempty none
  | case2 ts k rest members numeric =>
    rw [majority_eq_primitive members, if_pos numeric]
    exact resolve_numbers members numeric
  | case3 ts k rest members other =>
    rw [majority_eq_primitive members, if_neg other]
    apply resolve_eq_first (elect_eq members)
    · intro number
      obtain ⟨l, heq, numeric⟩ := family_eq_number_iff.1 number
      cases heq
      exact other numeric
    · cases k <;> simp [family]
    · cases k <;> simp [family]
  | case4 ts n items rest members ih =>
    rw [majority_eq_array members]
    exact resolve_arrays members ih
  | case5 ts n fields rest members none =>
    exact absurd none (shapeMajority_ne_nil (r := ⟨n, fields⟩) List.mem_cons_self)
  | case6 ts n fields rest members r others group ih =>
    rw [majority_eq_record members group]
    exact resolve_records members group ih
  | case7 ts branches rest members =>
    rw [majority_eq_union members]
    apply resolve_eq_first (elect_eq members) <;> simp [family]

@[simp]
theorem joinAll_eq (ts : List Schema) : joinAll ts = .ok (majority ts) := by
  rw [joinAll, resolve_eq]
  rfl

end SchemaInference.Lenient
