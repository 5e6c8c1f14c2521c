import Mathlib.Data.List.Nodup
import SchemaInference.Batch
import SchemaInference.Proofs.Rendering

/-!
# Groups of messages

Matches are grouped one after the other.  `Grouped key seen groups` says that the groups
are the classes of the matches seen so far whose schemas have one key.  A step that puts a
new class at the end keeps this, and so does a step that adds members to one of the classes.
-/

namespace SchemaInference

section Ascending
variable {is js : List Int} {i : Int}

theorem head_le_of_ascending (asc : is.Pairwise (· < ·)) (mem : i ∈ is) : is.head?.getD 0 ≤ i := by
  cases is with
  | nil => cases mem
  | cons j rest =>
    rcases List.mem_cons.1 mem with rfl | mem
    · exact Int.le_refl _
    · exact Int.le_of_lt ((List.pairwise_cons.1 asc).1 i mem)

theorem head_mem (full : is ≠ []) : is.head?.getD 0 ∈ is := by
  cases is with
  | nil => exact absurd rfl full
  | cons j rest => exact List.mem_cons_self

theorem head_eq_of_ascending (asc : is.Pairwise (· < ·)) (mem : i ∈ is)
    (least : ∀ j ∈ is, i ≤ j) : is.head?.getD 0 = i := by
  apply Int.le_antisymm
  · exact head_le_of_ascending asc mem
  · exact least _ (head_mem (List.ne_nil_of_mem mem))

/-- Sorting by numbers that are distinct leaves them ascending. -/
theorem mergeSort_pairwise {α : Type} {number : α → Int} {xs : List α}
    (distinct : (xs.map number).Nodup) :
    (xs.mergeSort fun a b => number a ≤ number b).Pairwise fun a b => number a < number b := by
  have perm := List.mergeSort_perm xs fun a b => decide (number a ≤ number b)
  have apart := List.pairwise_map.1 ((perm.map number).nodup_iff.2 distinct)
  have sorted : (xs.mergeSort fun a b => decide (number a ≤ number b)).Pairwise
      fun a b => decide (number a ≤ number b) = true := by
    apply List.pairwise_mergeSort
    · intro a b c hab hbc
      simp only [decide_eq_true_eq] at hab hbc ⊢
      omega
    · intro a b
      simp only [Bool.or_eq_true, decide_eq_true_eq]
      omega
  refine (sorted.and apart).imp fun h => ?_
  have le := of_decide_eq_true h.1
  have ne := h.2
  omega

/-- Sorting finds the one arrangement in which the numbers ascend. -/
theorem mergeSort_eq {α : Type} {number : α → Int} {xs ys : List α} (perm : xs.Perm ys)
    (ascend : ys.Pairwise fun a b => number a < number b) :
    (xs.mergeSort fun a b => number a ≤ number b) = ys := by
  have distinct : (xs.map number).Nodup := by
    apply (perm.map number).nodup_iff.2
    exact List.pairwise_map.2 (ascend.imp fun h => by omega)
  apply ((List.mergeSort_perm xs _).trans perm).eq_of_pairwise _ (mergeSort_pairwise distinct) ascend
  intro a b _ _ hab hba
  omega

theorem ascending_pairwise (distinct : is.Nodup) : (ascending is).Pairwise (· < ·) := by
  have own : (is.map id).Nodup := by simpa using distinct
  exact mergeSort_pairwise own

theorem mem_ascending : i ∈ ascending is ↔ i ∈ is := (List.mergeSort_perm is _).mem_iff

theorem eq_of_ascending (his : is.Pairwise (· < ·)) (hjs : js.Pairwise (· < ·))
    (same : ∀ i, i ∈ is ↔ i ∈ js) : is = js := by
  have nodup {ks : List Int} (h : ks.Pairwise (· < ·)) : ks.Nodup := h.imp fun h => by omega
  have perm : is.Perm js := (List.perm_ext_iff_of_nodup (nodup his) (nodup hjs)).2 same
  refine perm.eq_of_pairwise (fun a b _ _ hab hba => ?_) his hjs
  omega

theorem ascending_eq (perm : is.Perm js) (ascend : js.Pairwise (· < ·)) : ascending is = js := by
  have own : js.Pairwise fun i j => id i < id j := ascend
  exact mergeSort_eq perm own

end Ascending

section Matches
variable {found : List Match}

theorem mem_inOrder {m : Match} : m ∈ inOrder found ↔ m ∈ found :=
  (List.mergeSort_perm found _).mem_iff

theorem eq_of_index_eq (distinct : (found.map Match.index).Nodup) {m n : Match} (hm : m ∈ found)
    (hn : n ∈ found) (same : m.index = n.index) : m = n :=
  List.inj_on_of_nodup_map distinct hm hn same

theorem inOrder_pairwise (distinct : (found.map Match.index).Nodup) :
    (inOrder found).Pairwise fun m n => m.index < n.index :=
  mergeSort_pairwise distinct

theorem inOrder_eq {ordered : List Match} (perm : found.Perm ordered)
    (ascend : ordered.Pairwise fun m n => m.index < n.index) : inOrder found = ordered :=
  mergeSort_eq perm ascend

theorem groupMatches_eq (mode : Mode) {ordered : List Match} {parts : List Group}
    (perm : found.Perm ordered) (ascend : ordered.Pairwise fun m n => m.index < n.index)
    (exact : exactGroups ordered = parts) :
    groupMatches mode found = parts.foldl (fun groups g => addGroup mode g groups) [] := by
  rw [groupMatches, inOrder_eq perm ascend, exact]

end Matches

def Match.renumber (σ : Int → Int) (m : Match) : Match := ⟨σ m.index, m.schema⟩

section Outcomes
variable {results : List MessageOutcome}

theorem match?_cases (r : MessageOutcome) :
    r.match? = none ∨ ∃ m, r.match? = some m ∧ m.index = r.index := by
  obtain ⟨index, outcome⟩ := r
  cases outcome with
  | error e => exact .inl rfl
  | ok t => exact .inr ⟨⟨index, t⟩, rfl, rfl⟩

theorem matches_sublist : ((results.filterMap MessageOutcome.match?).map Match.index).Sublist
    (results.map MessageOutcome.index) := by
  induction results with
  | nil => exact .slnil
  | cons r rest ih =>
    rcases match?_cases r with none | ⟨m, some, index⟩
    · rw [List.filterMap_cons_none none]
      exact .cons _ ih
    · rw [List.filterMap_cons_some some, List.map_cons, List.map_cons, index]
      exact .cons_cons _ ih

theorem match?_renumber (σ : Int → Int) (r : MessageOutcome) :
    (⟨σ r.index, r.outcome⟩ : MessageOutcome).match? = r.match?.map (Match.renumber σ) := by
  obtain ⟨index, outcome⟩ := r
  cases outcome <;> rfl

theorem matches_renumber (σ : Int → Int) :
    (results.map fun r => (⟨σ r.index, r.outcome⟩ : MessageOutcome)).filterMap
      MessageOutcome.match? = (results.filterMap MessageOutcome.match?).map (Match.renumber σ) := by
  rw [List.filterMap_map, List.map_filterMap]
  exact congrArg (List.filterMap · results) (funext (match?_renumber σ))

end Outcomes

/-- What adding a group to groups can do. -/
theorem addGroup_cases (mode : Mode) (e : Group) (groups : List Group) :
    (addGroup mode e groups = groups ++ [e] ∧ ∀ g ∈ groups, coalesce? mode g e = none) ∨
    ∃ front g back c, groups = front ++ g :: back ∧ coalesce? mode g e = some c ∧
      addGroup mode e groups = front ++ ⟨c, ascending (g.messages ++ e.messages)⟩ :: back := by
  induction groups with
  | nil => exact .inl ⟨rfl, by simp⟩
  | cons g rest ih =>
    cases joined : coalesce? mode g e with
    | some c => exact .inr ⟨[], g, rest, c, rfl, joined, by simp [addGroup, joined]⟩
    | none =>
      rcases ih with ⟨added, none⟩ | ⟨front, h, back, c, rfl, some, added⟩
      · exact .inl ⟨by simp [addGroup, joined, added], List.forall_mem_cons.2 ⟨joined, none⟩⟩
      · exact .inr ⟨g :: front, h, back, c, rfl, some, by simp [addGroup, joined, added]⟩

/-- The groups of the matches in `seen`, one for each key of their schemas, by first message. -/
structure Grouped {κ : Type} (key : Schema → κ) (seen : Match → Prop) (groups : List Group) :
    Prop where
  inhabited : ∀ g ∈ groups, g.messages ≠ []
  ascending : ∀ g ∈ groups, g.messages.Pairwise (· < ·)
  members : ∀ g ∈ groups, ∀ i,
    i ∈ g.messages ↔ ∃ m, seen m ∧ key m.schema = key g.schema ∧ m.index = i
  complete : ∀ m, seen m → ∃ g ∈ groups, key m.schema = key g.schema
  apart : groups.Pairwise fun a b => key a.schema ≠ key b.schema
  ordered : groups.Pairwise fun a b => a.first < b.first

namespace Grouped
variable {κ : Type} {key : Schema → κ} {seen new : Match → Prop} {groups front back : List Group}
  {g g' : Group}

theorem nil : Grouped key (fun _ => False) [] where
  inhabited := by simp
  ascending := by simp
  members := by simp
  complete := by simp
  apart := .nil
  ordered := .nil

theorem congr {seen' : Match → Prop} (h : Grouped key seen groups)
    (same : ∀ m, seen m ↔ seen' m) : Grouped key seen' groups := by
  obtain rfl : seen = seen' := funext fun m => propext (same m)
  exact h

theorem first_mem (h : Grouped key seen groups) (hg : g ∈ groups) : g.first ∈ g.messages :=
  head_mem (h.inhabited g hg)

theorem members_of_other (h : Grouped key seen groups) (hg : g ∈ groups)
    (other : ∀ m, new m → key m.schema ≠ key g.schema) (i : Int) :
    i ∈ g.messages ↔ ∃ m, (seen m ∨ new m) ∧ key m.schema = key g.schema ∧ m.index = i := by
  rw [h.members g hg]
  constructor
  · rintro ⟨m, hm, same, at_⟩
    exact ⟨m, .inl hm, same, at_⟩
  · rintro ⟨m, hm, same, at_⟩
    exact ⟨m, hm.resolve_right fun hm => other m hm same, same, at_⟩

/-- A new class may be put behind those that begin earlier. -/
theorem append (h : Grouped key seen groups) (unused : ∀ e ∈ groups, key e.schema ≠ key g.schema)
    (full : g.messages ≠ []) (asc : g.messages.Pairwise (· < ·))
    (own : ∀ m, new m → key m.schema = key g.schema)
    (members : ∀ i, i ∈ g.messages ↔ ∃ m, new m ∧ m.index = i)
    (later : ∀ e ∈ groups, e.first < g.first) :
    Grouped key (fun m => seen m ∨ new m) (groups ++ [g]) where
  inhabited := List.forall_mem_append.2 ⟨h.inhabited, by simpa using full⟩
  ascending := List.forall_mem_append.2 ⟨h.ascending, by simpa using asc⟩
  members := by
    refine List.forall_mem_append.2 ⟨fun e he => h.members_of_other he fun m hm same => ?_, ?_⟩
    · exact unused e he (same.symm.trans (own m hm))
    · intro a ha i
      cases List.mem_singleton.1 ha
      rw [members]
      constructor
      · rintro ⟨m, hm, rfl⟩
        exact ⟨m, .inr hm, own m hm, rfl⟩
      · rintro ⟨m, hm | hm, same, rfl⟩
        · obtain ⟨e, he, found⟩ := h.complete m hm
          exact absurd (found.symm.trans same) (unused e he)
        · exact ⟨m, hm, rfl⟩
  complete := by
    rintro m (hm | hm)
    · obtain ⟨e, he, same⟩ := h.complete m hm
      exact ⟨e, List.mem_append_left _ he, same⟩
    · exact ⟨g, by simp, own m hm⟩
  apart := by
    refine List.pairwise_append.2 ⟨h.apart, List.pairwise_singleton _ _, fun e he a ha => ?_⟩
    cases List.mem_singleton.1 ha
    exact unused e he
  ordered := by
    refine List.pairwise_append.2 ⟨h.ordered, List.pairwise_singleton _ _, fun e he a ha => ?_⟩
    cases List.mem_singleton.1 ha
    exact later e he

theorem eq_or_other (h : Grouped key seen (front ++ g :: back)) {e : Group}
    (he : e ∈ front ++ g' :: back) :
    e = g' ∨ (e ∈ front ++ g :: back ∧ key e.schema ≠ key g.schema) := by
  obtain ⟨_, behind, across⟩ := List.pairwise_append.1 h.apart
  rcases List.mem_append.1 he with he | he
  · exact .inr ⟨List.mem_append_left _ he, across e he g List.mem_cons_self⟩
  rcases List.mem_cons.1 he with rfl | he
  · exact .inl rfl
  · exact .inr ⟨by simp [he], ((List.pairwise_cons.1 behind).1 e he).symm⟩

/-- A class may take up members that come after its first one. -/
theorem replace (h : Grouped key seen (front ++ g :: back)) (same : key g'.schema = key g.schema)
    (asc : g'.messages.Pairwise (· < ·)) (own : ∀ m, new m → key m.schema = key g.schema)
    (members : ∀ i, i ∈ g'.messages ↔ i ∈ g.messages ∨ ∃ m, new m ∧ m.index = i)
    (later : ∀ m, new m → g.first < m.index) :
    Grouped key (fun m => seen m ∨ new m) (front ++ g' :: back) := by
  have hg : g ∈ front ++ g :: back := by simp
  have first : g'.first = g.first := by
    apply head_eq_of_ascending asc ((members _).2 (.inl (h.first_mem hg)))
    intro i hi
    rcases (members i).1 hi with hi | ⟨m, hm, rfl⟩
    · exact head_le_of_ascending (h.ascending g hg) hi
    · exact Int.le_of_lt (later m hm)
  constructor
  case inhabited =>
    intro e he
    rcases h.eq_or_other he with rfl | ⟨he, _⟩
    · exact List.ne_nil_of_mem ((members _).2 (.inl (h.first_mem hg)))
    · exact h.inhabited e he
  case ascending =>
    intro e he
    rcases h.eq_or_other he with rfl | ⟨he, _⟩
    · exact asc
    · exact h.ascending e he
  case members =>
    intro e he i
    rcases h.eq_or_other he with rfl | ⟨he, other⟩
    · rw [members, h.members g hg, same]
      constructor
      · rintro (⟨m, hm, key, at_⟩ | ⟨m, hm, at_⟩)
        · exact ⟨m, .inl hm, key, at_⟩
        · exact ⟨m, .inr hm, own m hm, at_⟩
      · rintro ⟨m, hm | hm, key, at_⟩
        · exact .inl ⟨m, hm, key, at_⟩
        · exact .inr ⟨m, hm, at_⟩
    · exact h.members_of_other he (fun m hm same => other (same.symm.trans (own m hm))) i
  case complete =>
    have whole (m : Match) (hm : seen m ∨ new m) :
        ∃ e ∈ front ++ g :: back, key m.schema = key e.schema := by
      rcases hm with hm | hm
      · exact h.complete m hm
      · exact ⟨g, hg, own m hm⟩
    intro m hm
    obtain ⟨e, he, found⟩ := whole m hm
    rcases List.mem_append.1 he with he | he
    · exact ⟨e, by simp [he], found⟩
    rcases List.mem_cons.1 he with rfl | he
    · exact ⟨g', by simp, found.trans same.symm⟩
    · exact ⟨e, by simp [he], found⟩
  -- the classes in their order have the keys and the first messages that they had
  case apart =>
    have keys : (front ++ g' :: back).map (fun g => key g.schema) =
        (front ++ g :: back).map fun g => key g.schema := by simp [same]
    have := List.pairwise_map.2 h.apart
    rw [← keys] at this
    exact List.pairwise_map.1 this
  case ordered =>
    have firsts : (front ++ g' :: back).map Group.first = (front ++ g :: back).map Group.first := by
      simp [first]
    have := List.pairwise_map.2 h.ordered
    rw [← firsts] at this
    exact List.pairwise_map.1 this

end Grouped

section Exact
variable {seen found : List Match} {table : List (Text × Group)} {m : Match}

/-- The groups of texts are the classes of equal schemas, each under the text of its schema. -/
structure ByText (seen : List Match) (table : List (Text × Group)) : Prop where
  text : ∀ e ∈ table, e.1 = e.2.schema.text
  grouped : Grouped id (· ∈ seen) (table.map Prod.snd)

section Step
variable {g : Group} (h : ByText seen table) (later : ∀ n ∈ seen, n.index < m.index)
include h later

theorem ByText.lt_index (hg : g ∈ table.map Prod.snd) {i : Int} (hi : i ∈ g.messages) :
    i < m.index := by
  obtain ⟨n, hn, _, rfl⟩ := (h.grouped.members g hg i).1 hi
  exact later n hn

/-- A match whose text is in use is added to the group of that text. -/
theorem ByText.extend (used : Keyed.get? m.schema.text table = some g) :
    ByText (seen ++ [m])
      (Keyed.put m.schema.text { g with messages := g.messages ++ [m.index] } table) := by
  obtain ⟨front, back, rfl, replaced⟩ := Keyed.exists_put_of_used used
  have hg : g ∈ (front ++ (m.schema.text, g) :: back).map Prod.snd := by simp
  have text : m.schema.text = g.schema.text := h.text (m.schema.text, g) (by simp)
  have whole (n : Match) : n ∈ seen ∨ n = m ↔ n ∈ seen ++ [m] := by simp
  rw [replaced]
  constructor
  · intro e he
    rcases List.mem_append.1 he with he | he
    · exact h.text e (by simp [he])
    rcases List.mem_cons.1 he with rfl | he
    · exact text
    · exact h.text e (by simp [he])
  · have grouped := h.grouped
    rw [List.map_append, List.map_cons] at grouped ⊢
    refine Grouped.congr (grouped.replace rfl ?_ ?_ ?_ ?_) whole
    · refine List.pairwise_append.2 ⟨h.grouped.ascending g hg, List.pairwise_singleton _ _, ?_⟩
      intro i hi j hj
      cases List.mem_singleton.1 hj
      exact h.lt_index later hg hi
    · -- schemas of one text are equal
      rintro n rfl
      exact Schema.text_injective text
    · intro i
      simp [eq_comm]
    · rintro n rfl
      exact h.lt_index later hg (h.grouped.first_mem hg)

/-- A match whose text is not in use begins a group. -/
theorem ByText.begin (unused : Keyed.get? m.schema.text table = none) :
    ByText (seen ++ [m]) (Keyed.put m.schema.text ⟨m.schema, [m.index]⟩ table) := by
  have unused := Keyed.get?_eq_none_iff.1 unused
  have whole (n : Match) : n ∈ seen ∨ n = m ↔ n ∈ seen ++ [m] := by simp
  rw [Keyed.put_of_unused unused]
  constructor
  · intro e he
    rcases List.mem_append.1 he with he | he
    · exact h.text e he
    · cases List.mem_singleton.1 he
      rfl
  · rw [List.map_append]
    refine Grouped.congr (h.grouped.append (fun g hg same => ?_) ?_ ?_ ?_ ?_ ?_) whole
    · obtain ⟨e, he, rfl⟩ := List.mem_map.1 hg
      have same : e.2.schema = m.schema := same
      exact unused (List.mem_map.2 ⟨e, he, by rw [h.text e he, same]⟩)
    · simp
    · simp
    · rintro n rfl
      rfl
    · intro i
      simp [eq_comm]
    · exact fun g hg => h.lt_index later hg (h.grouped.first_mem hg)

theorem ByText.add : ByText (seen ++ [m]) (addMatch table m) := by
  unfold addMatch
  dsimp only
  split
  · next g used => exact h.extend later used
  · next unused => exact h.begin later unused

end Step

theorem ByText.addAll (later : (seen ++ found).Pairwise fun m n => m.index < n.index)
    (h : ByText seen table) : ByText (seen ++ found) (found.foldl addMatch table) := by
  induction found generalizing seen table with
  | nil => simpa using h
  | cons m rest ih =>
    have before : ∀ n ∈ seen, n.index < m.index := fun n hn =>
      (List.pairwise_append.1 later).2.2 n hn m List.mem_cons_self
    have step : ByText (seen ++ [m] ++ rest) (rest.foldl addMatch (addMatch table m)) :=
      ih (by simpa using later) (h.add before)
    simpa using step

/-- The groups of matches in order are the classes of equal schemas. -/
theorem grouped_exactGroups (later : found.Pairwise fun m n => m.index < n.index) :
    Grouped id (· ∈ found) (exactGroups found) := by
  have start : ByText [] [] := ⟨by simp, Grouped.nil.congr (by simp)⟩
  have whole : ByText ([] ++ found) (found.foldl addMatch []) :=
    ByText.addAll (by simpa using later) start
  exact whole.grouped

end Exact

end SchemaInference
