import SchemaInference.Proofs.Alike

/-!
# Stable majorities

The majority of a collection wins again when it stands among the types of the collection,
at whatever place, and when types of other families are left out.  Both changes keep the most
frequent key of a vote, so that they keep the members that the winner is made of.
-/

namespace SchemaInference

open Schema

/-- Whether the list `ys` is the list `xs` with `y` at one more place. -/
def HasOneMore {α : Type} (y : α) (xs ys : List α) : Prop :=
  ∃ before after, xs = before ++ after ∧ ys = before ++ y :: after

namespace HasOneMore
variable {α β : Type} {x y : α} {xs ys rest : List α}

theorem map (h : HasOneMore y xs ys) (f : α → β) : HasOneMore (f y) (xs.map f) (ys.map f) := by
  obtain ⟨before, after, rfl, rfl⟩ := h
  exact ⟨before.map f, after.map f, List.map_append, List.map_append⟩

theorem filterMap (h : HasOneMore y xs ys) {f : α → Option β} {z : β} (hz : f y = some z) :
    HasOneMore z (xs.filterMap f) (ys.filterMap f) := by
  obtain ⟨before, after, rfl, rfl⟩ := h
  refine ⟨before.filterMap f, after.filterMap f, List.filterMap_append, ?_⟩
  rw [List.filterMap_append, List.filterMap_cons_some hz]

theorem filter (h : HasOneMore y xs ys) {p : α → Bool} (hy : p y = true) :
    HasOneMore y (xs.filter p) (ys.filter p) := by
  obtain ⟨before, after, rfl, rfl⟩ := h
  refine ⟨before.filter p, after.filter p, List.filter_append .., ?_⟩
  rw [List.filter_append, List.filter_cons_of_pos hy]

theorem filter_eq (h : HasOneMore y xs ys) {p : α → Bool} (hy : ¬p y = true) :
    ys.filter p = xs.filter p := by
  obtain ⟨before, after, rfl, rfl⟩ := h
  rw [List.filter_append, List.filter_append, List.filter_cons_of_neg hy]

theorem mem_iff (h : HasOneMore y xs ys) : x ∈ ys ↔ x = y ∨ x ∈ xs := by
  obtain ⟨before, after, rfl, rfl⟩ := h
  rw [List.mem_append, List.mem_cons, List.mem_append, or_left_comm]

theorem exists_cons (h : HasOneMore y (x :: rest) ys) :
    ∃ first others, ys = first :: others ∧ (first = x ∨ first = y) := by
  obtain ⟨before, after, split, rfl⟩ := h
  cases before with
  | nil => exact ⟨y, after, rfl, .inr rfl⟩
  | cons z before =>
    obtain ⟨rfl, -⟩ := List.cons.inj split
    exact ⟨x, before ++ y :: after, rfl, .inl rfl⟩

variable [DecidableEq α]

theorem count_eq (h : HasOneMore y xs ys) (z : α) :
    ys.count z = xs.count z + if y = z then 1 else 0 := by
  obtain ⟨before, after, rfl, rfl⟩ := h
  simp only [List.count_append, List.count_cons, beq_iff_eq, Nat.add_assoc]

end HasOneMore

section Frequency
variable {κ : Type} [DecidableEq κ] {ks ls : List κ} {k l : κ}

theorem mostFrequent?_of_alone (mem : k ∈ ks) (alone : ∀ l, l ≠ k → ks.count l < ks.count k) :
    mostFrequent? ks = some k := by
  have same (l : κ) : ks.count l = ks.count k ↔ l = k := by
    constructor
    · intro count
      by_contra ne
      exact Nat.ne_of_lt (alone l ne) count
    · exact fun heq => heq ▸ rfl
  refine mostFrequent?_eq_some_iff.2 ⟨fun l => ?_, ?_⟩
  · by_cases heq : l = k
    · exact Nat.le_of_eq ((same l).2 heq)
    · exact Nat.le_of_lt (alone l heq)
  · obtain ⟨before, after, split, unused⟩ := List.eq_append_cons_of_mem mem
    simp only [same]
    refine List.find?_eq_some_iff_append.2 ⟨by simp, before, after, split, fun l hl => ?_⟩
    simpa using ne_of_mem_of_not_mem hl unused

/-- A further vote for the most frequent key leaves it the most frequent one. -/
theorem mostFrequent?_add (more : HasOneMore k ks ls) (h : mostFrequent? ks = some k) :
    mostFrequent? ls = some k := by
  obtain ⟨most, -⟩ := mostFrequent?_eq_some_iff.1 h
  apply mostFrequent?_of_alone (more.mem_iff.2 (.inl rfl))
  intro l ne
  have := most l
  rw [more.count_eq, more.count_eq, if_neg (Ne.symm ne), if_pos rfl]
  omega

omit [DecidableEq κ] in
theorem find?_eq_some_of_imp {p q : κ → Bool} (found : ks.find? p = some k)
    (imp : ∀ l, q l = true → p l = true) (hk : q k = true) : ks.find? q = some k := by
  obtain ⟨-, before, after, rfl, others⟩ := List.find?_eq_some_iff_append.1 found
  refine List.find?_eq_some_iff_append.2 ⟨hk, before, after, rfl, fun l hl => ?_⟩
  have other := others l hl
  by_cases hq : q l = true
  · rw [imp l hq] at other
    cases other
  · simpa using hq

/-- The most frequent key stays the most frequent one without a vote for another key. -/
theorem mostFrequent?_remove (more : HasOneMore l ks ls) (h : mostFrequent? ls = some k)
    (ne : l ≠ k) : mostFrequent? ks = some k := by
  obtain ⟨most, found⟩ := mostFrequent?_eq_some_iff.1 h
  have own : ls.count k = ks.count k := by
    rw [more.count_eq, if_neg ne, Nat.add_zero]
  rw [own] at most found
  have fewer (m : κ) : ks.count m ≤ ks.count k := by
    have := most m
    rw [more.count_eq] at this
    omega
  refine mostFrequent?_eq_some_iff.2 ⟨fewer, ?_⟩
  -- what is now as frequent as `k` was so before, and `l` is not
  have now : ls.find? (fun m => ks.count m = ks.count k) = some k := by
    refine find?_eq_some_of_imp found (fun m hm => ?_) (by simp)
    have := most m
    rw [decide_eq_true_eq] at hm ⊢
    rw [more.count_eq] at this ⊢
    omega
  have less : ks.count l ≠ ks.count k := by
    have := most l
    rw [more.count_eq, if_pos rfl] at this
    omega
  rwa [← List.head?_filter, more.filter_eq (by simpa using less), List.head?_filter] at now

end Frequency

section Votes
variable {α κ : Type} [DecidableEq κ] {key : α → κ} {xs ys : List α} {x y : α}

/-- One more element of the majority stands among its elements and changes nothing else. -/
theorem majorityBy_add (more : HasOneMore y xs ys) (hx : x ∈ majorityBy key xs)
    (same : key y = key x) : HasOneMore y (majorityBy key xs) (majorityBy key ys) := by
  have won := mostFrequent?_of_mem_majorityBy hx
  have wins := mostFrequent?_add (same ▸ more.map key) won
  rw [majorityBy_eq_filter won, majorityBy_eq_filter wins]
  exact more.filter (by simpa using same)

theorem majorityBy_remove (more : HasOneMore y xs ys) (hx : x ∈ majorityBy key ys)
    (other : key y ≠ key x) : majorityBy key xs = majorityBy key ys := by
  have won := mostFrequent?_of_mem_majorityBy hx
  have wins := mostFrequent?_remove (more.map key) won other
  rw [majorityBy_eq_filter won, majorityBy_eq_filter wins]
  exact (more.filter_eq (by simpa using other)).symm

end Votes

section Families
variable {ts us : List Schema} {s t : Schema}

theorem familyMajority_add_null (more : HasOneMore null ts us) :
    familyMajority us = familyMajority ts := by
  unfold familyMajority
  rw [more.filter_eq (by simp)]

/-- One more type of the most frequent family stands among its members. -/
theorem familyMajority_add (more : HasOneMore t ts us) (hs : s ∈ familyMajority ts)
    (same : t.family = s.family) : HasOneMore t (familyMajority ts) (familyMajority us) := by
  have full : t ≠ null := fun none =>
    ne_null_of_mem_familyMajority hs (family_eq_null_iff.1 (same ▸ family_eq_null_iff.2 none))
  exact majorityBy_add (more.filter (by simpa using full)) hs same

/-- Of the members with one more the first is the first member or the new one. -/
theorem exists_members_add {rest : List Schema} (members : familyMajority ts = s :: rest)
    (more : HasOneMore t ts us) (same : t.family = s.family) :
    ∃ first others, familyMajority us = first :: others ∧ (first = s ∨ first = t) ∧
      HasOneMore t (s :: rest) (first :: others) := by
  have grown := familyMajority_add more (members ▸ List.mem_cons_self) same
  rw [members] at grown
  obtain ⟨first, others, all, form⟩ := grown.exists_cons
  exact ⟨first, others, all, form, all ▸ grown⟩

/-- The most frequent family keeps its members without a type of another family. -/
theorem familyMajority_remove (more : HasOneMore t ts us) (hs : s ∈ familyMajority us)
    (other : t.family ≠ s.family) : familyMajority ts = familyMajority us := by
  by_cases none : t = null
  · exact (familyMajority_add_null (none ▸ more)).symm
  · exact majorityBy_remove (more.filter (by simpa using none)) hs other

/-- The majority depends on the members of the most frequent family only. -/
theorem majority_congr (same : familyMajority ts = familyMajority us) :
    majority ts = majority us := by
  rcases members : familyMajority us with _ | ⟨t, rest⟩
  · rw [majority_eq_null members, majority_eq_null (same.trans members)]
  cases t with
  | primitive k => rw [majority_eq_primitive members, majority_eq_primitive (same.trans members)]
  | array n items => rw [majority_eq_array members, majority_eq_array (same.trans members)]
  | record n fields =>
    rcases group : shapeMajority (.record n fields :: rest) with _ | ⟨r, others⟩
    · rw [majority_eq_null_of_record members group,
        majority_eq_null_of_record (same.trans members) group]
    · rw [majority_eq_record members group, majority_eq_record (same.trans members) group]
  | union branches => rw [majority_eq_union members, majority_eq_union (same.trans members)]

/-- Where numbers are most frequent, the majority is the widest kind of them. -/
theorem exists_widest_number {k : Kind} (hk : .primitive k ∈ familyMajority ts)
    (numeric : k.isNumeric = true) : ∃ m, majority ts = .primitive m ∧ m.isNumeric = true ∧
      .primitive m ∈ familyMajority ts ∧
        ∀ l, .primitive l ∈ familyMajority ts → l.fits m = true := by
  have numbers (t : Schema) (ht : t ∈ familyMajority ts) :
      ∃ l, t = .primitive l ∧ l.isNumeric = true := by
    apply family_eq_number_iff.1
    rw [family_eq_of_mem ht hk]
    exact family_eq_number_iff.2 ⟨k, rfl, numeric⟩
  obtain ⟨kinds, members⟩ := exists_eq_map fun t ht => (numbers t ht).imp fun _ h => h.1
  have numeric (l : Kind) (hl : l ∈ kinds) : l.isNumeric = true := by
    obtain ⟨l', heq, h⟩ := numbers (.primitive l) (members ▸ List.mem_map_of_mem hl)
    cases heq
    exact h
  rcases kinds with _ | ⟨first, others⟩
  · rw [members] at hk
    cases hk
  have own : (others.map Schema.primitive).filterMap kind? = others := by
    simp [List.filterMap_map, Function.comp_def, kind?]
  obtain ⟨mem, wide⟩ := Kind.foldl_widest_spec numeric
  refine ⟨others.foldl Kind.widest first, ?_, numeric _ mem, ?_, fun l hl => wide l ?_⟩
  · rw [majority_eq_primitive members, if_pos (numeric first List.mem_cons_self), own]
  · rw [members]
    exact List.mem_map_of_mem mem
  · simpa [members] using hl

/-- A majority other than null is of the family of the members that it is made of. -/
theorem exists_mem_of_majority (full : majority ts ≠ null) :
    ∃ s ∈ familyMajority ts, (majority ts).family = s.family := by
  rcases members : familyMajority ts with _ | ⟨t, rest⟩
  · exact absurd (majority_eq_null members) full
  refine ⟨t, List.mem_cons_self, ?_⟩
  cases t with
  | primitive k =>
    by_cases numeric : k.isNumeric = true
    · obtain ⟨m, won, number, -⟩ := exists_widest_number (members ▸ List.mem_cons_self) numeric
      rw [won, family_eq_number_iff.2 ⟨m, rfl, number⟩, family_eq_number_iff.2 ⟨k, rfl, numeric⟩]
    · rw [majority_eq_primitive members, if_neg numeric]
  | array n items =>
    rw [majority_eq_array members]
    rfl
  | record n fields =>
    rcases group : shapeMajority (.record n fields :: rest) with _ | ⟨r, others⟩
    · exact absurd (majority_eq_null_of_record members group) full
    · rw [majority_eq_record members group]
      rfl
  | union branches => rw [majority_eq_union members]

end Families

/-- Whether the majority of types wins again when it stands among them, at whatever place. -/
def WinsAgain (ts : List Schema) : Prop :=
  ∀ us, HasOneMore (majority ts) ts us → majority us = majority ts

section WinsAgain
variable {ts rest : List Schema}

theorem winsAgain_null (none : majority ts = null) : WinsAgain ts := by
  intro us more
  rw [none] at more
  exact majority_congr (familyMajority_add_null more)

theorem winsAgain_number {k : Kind} (hk : .primitive k ∈ familyMajority ts)
    (numeric : k.isNumeric = true) : WinsAgain ts := by
  intro us more
  obtain ⟨m, won, number, -, wide⟩ := exists_widest_number hk numeric
  rw [won] at more ⊢
  have same : family (.primitive m) = family (.primitive k) :=
    (family_eq_number_iff.2 ⟨m, rfl, number⟩).trans (family_eq_number_iff.2 ⟨k, rfl, numeric⟩).symm
  have grown := familyMajority_add more hk same
  have mem : .primitive m ∈ familyMajority us := grown.mem_iff.2 (.inl rfl)
  obtain ⟨w, wins, -, hw, wider⟩ := exists_widest_number mem number
  -- the new winner is `m` or was a member before, so that neither is wider than the other
  have fits : w.fits m = true := by
    rcases grown.mem_iff.1 hw with heq | hw
    · cases heq
      exact Kind.fits_refl m
    · exact wide w hw
  rw [wins, Kind.fits_antisymm fits (wider m mem)]

/-- A winner that is the first of the members wins again. -/
theorem winsAgain_first {t : Schema} (members : familyMajority ts = t :: rest)
    (first : ∀ us others, familyMajority us = t :: others → majority us = t) : WinsAgain ts := by
  intro us more
  rw [first ts rest members] at more ⊢
  obtain ⟨head, others, all, form, -⟩ := exists_members_add members more rfl
  obtain rfl : head = t := form.elim id id
  exact first us others all

theorem winsAgain_array {n : Option Text} {items : Schema}
    (members : familyMajority ts = .array n items :: rest)
    (inner : WinsAgain ((.array n items :: rest).filterMap items?)) : WinsAgain ts := by
  intro us more
  rw [majority_eq_array members] at more ⊢
  obtain ⟨head, others, all, form, grown⟩ := exists_members_add members more rfl
  obtain ⟨first, rfl⟩ : ∃ first, head = .array n first :=
    form.elim (fun h => ⟨_, h⟩) fun h => ⟨_, h⟩
  rw [majority_eq_array all]
  exact congrArg (Schema.array n) (inner _ (grown.filterMap rfl))

theorem winsAgain_record {n : Text} {fields : List (Text × Schema)} {r : Record}
    {others : List Record} (members : familyMajority ts = .record n fields :: rest)
    (group : shapeMajority (.record n fields :: rest) = r :: others)
    (inner : ∀ f, WinsAgain ((r :: others).filterMap (·.field? f))) : WinsAgain ts := by
  intro us more
  rw [majority_eq_record members group] at more ⊢
  obtain ⟨head, behind, all, form, grown⟩ := exists_members_add members more rfl
  obtain ⟨m, gs, rfl⟩ : ∃ m gs, head = .record m gs :=
    form.elim (fun h => ⟨_, _, h⟩) fun h => ⟨_, _, h⟩
  -- among the records of the winning names the winner is one more
  have hr : r ∈ shapeMajority (.record n fields :: rest) := group ▸ List.mem_cons_self
  have shaped : HasOneMore (r.retyped fun f => majority ((r :: others).filterMap (·.field? f)))
      (shapeMajority (.record n fields :: rest)) (shapeMajority (.record m gs :: behind)) :=
    majorityBy_add (grown.filterMap rfl) hr Record.names_retyped
  rw [group] at shaped
  obtain ⟨q, later, regrouped, side⟩ := shaped.exists_cons
  have own : q.name = r.name ∧ q.names = r.names := by
    rcases side with rfl | rfl
    · exact ⟨rfl, rfl⟩
    · exact ⟨rfl, Record.names_retyped⟩
  rw [majority_eq_record all regrouped]
  refine congrArg Record.schema (Record.retyped_congr own.1 own.2 fun f hf => ?_)
  rw [← regrouped]
  exact inner f _ (shaped.filterMap (Record.field?_retyped_eq_some.2 ⟨hf, rfl⟩))

theorem winsAgain (ts : List Schema) : WinsAgain ts := by
  induction ts using majority.induct with
  | case1 ts none => exact winsAgain_null (majority_eq_null none)
  | case2 ts k rest members numeric =>
    exact winsAgain_number (members ▸ List.mem_cons_self) numeric
  | case3 ts k rest members other =>
    apply winsAgain_first members
    intro us others first
    rw [majority_eq_primitive first, if_neg other]
  | case4 ts n items rest members ih => exact winsAgain_array members ih
  | case5 ts n fields rest members none =>
    exact winsAgain_null (majority_eq_null_of_record members none)
  | case6 ts n fields rest members r others group ih => exact winsAgain_record members group ih
  | case7 ts branches rest members =>
    exact winsAgain_first members fun us others first => majority_eq_union first

end WinsAgain

/-- What may remain of types when some that are not of a family are left out. -/
inductive LeavesOut (family : Family) (ts : List Schema) : List Schema → Prop where
  | none : LeavesOut family ts ts
  | one {kept more : List Schema} {t : Schema} (before : LeavesOut family ts more)
    (left : HasOneMore t kept more) (other : t.family ≠ family) : LeavesOut family ts kept

/-- Without types of other families the members of the winning family stay the same. -/
theorem familyMajority_leavesOut {ts kept : List Schema} {s : Schema}
    (hs : s ∈ familyMajority ts) (h : LeavesOut s.family ts kept) :
    familyMajority kept = familyMajority ts := by
  induction h with
  | none => rfl
  | one _ left other ih => exact (familyMajority_remove left (ih.symm ▸ hs) other).trans ih

/--
The majority of types wins again when it is put among them, and, unless it is null, when types
of other families than its own are left out.
-/
theorem majority_isStable (ts : List Schema) :
    (∀ front back, ts = front ++ back → majority (front ++ majority ts :: back) = majority ts) ∧
    (majority ts ≠ .null →
      ∀ kept, LeavesOut (majority ts).family ts kept → majority kept = majority ts) := by
  constructor
  · intro front back split
    exact winsAgain ts _ ⟨front, back, split, rfl⟩
  · intro full kept left
    obtain ⟨s, hs, family⟩ := exists_mem_of_majority full
    rw [family] at left
    exact majority_congr (familyMajority_leavesOut hs left)

/-- Two records of one shape win against a string and a null with a type that is none of theirs. -/
theorem majority_isStable_of_records :
    let record (name : Text) (x : Kind) (items : Schema) : Schema :=
      .record name [("x", .primitive x), ("y", .array none items)]
    let a := record "a" .int .null
    let b := record "b" .long (.primitive .string)
    let won := record "a" .long (.primitive .string)
    majority [.primitive .string, a, .null, b] = won ∧
      majority [won, .primitive .string, a, .null, b] = won ∧ won ≠ .null ∧
        majority [a, b] = won := by
  intro record a b won
  have first : majority [.primitive .string, a, .null, b] = won := by
    have x : majority [.primitive .int, .primitive .long] = .primitive .long := by
      have numbers : familyMajority [.primitive .int, .primitive .long] =
          [.primitive .int, .primitive .long] := by decide
      rw [majority_eq_primitive numbers]
      rfl
    have items : majority [.null, .primitive .string] = .primitive .string := by
      have strings : familyMajority [.null, .primitive .string] = [.primitive .string] := by decide
      rw [majority_eq_primitive strings]
      rfl
    have y : majority [.array none .null, .array none (.primitive .string)] =
        .array none (.primitive .string) := by
      have arrays : familyMajority [.array none .null, .array none (.primitive .string)] =
          [.array none .null, .array none (.primitive .string)] := by decide
      rw [majority_eq_array arrays]
      exact congrArg (Schema.array none) items
    have members : familyMajority [.primitive .string, a, .null, b] = [a, b] := by decide
    have group : shapeMajority [a, b] = [a, b].filterMap record? := by decide
    rw [majority_eq_record members group]
    change Schema.record "a" [("x", majority [.primitive .int, .primitive .long]),
      ("y", majority [.array none .null, .array none (.primitive .string)])] = won
    rw [x, y]
  obtain ⟨again, without⟩ := majority_isStable [.primitive .string, a, .null, b]
  rw [first] at again without
  have full : won ≠ .null := by decide
  refine ⟨first, again [] _ rfl, full, without full [a, b] ?_⟩
  have noString : LeavesOut won.family [.primitive .string, a, .null, b] [a, .null, b] :=
    .one .none ⟨[], [a, .null, b], rfl, rfl⟩ (by decide)
  exact .one noString ⟨[a], [b], rfl, rfl⟩ (by decide)

end SchemaInference
