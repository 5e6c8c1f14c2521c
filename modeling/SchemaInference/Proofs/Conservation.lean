import Mathlib.Data.List.Flatten
import SchemaInference.Proofs.Grouping

/-!
# Conservation of messages

Whatever the schemas are, grouping moves the numbers of the matched messages about without
losing or repeating one: the messages of all groups are a permutation of them.  Every group
lists its messages in ascending order, and the groups stand in the order of their first
messages.  Since no two groups begin with the same message, ranking has one outcome only.
-/

namespace SchemaInference

section Permutations

theorem flatMap_messages_put {text : Text} {g g' : Group} {table : List (Text × Group)}
    {added : List Int} (used : Keyed.get? text table = some g)
    (grown : g'.messages = g.messages ++ added) :
    ((Keyed.put text g' table).flatMap fun e => e.2.messages).Perm
      ((table.flatMap fun e => e.2.messages) ++ added) := by
  obtain ⟨front, back, rfl, replaced⟩ := Keyed.exists_put_of_used used
  rw [replaced]
  simp only [List.flatMap_append, List.flatMap_cons, grown, List.append_assoc]
  apply List.Perm.append_left
  apply List.Perm.append_left
  exact List.perm_append_comm

theorem perm_messages_addMatch (table : List (Text × Group)) (m : Match) :
    ((addMatch table m).flatMap fun e => e.2.messages).Perm
      ((table.flatMap fun e => e.2.messages) ++ [m.index]) := by
  unfold addMatch
  dsimp only
  split
  · next g used => exact flatMap_messages_put used rfl
  · next unused =>
    rw [Keyed.put_of_unused (Keyed.get?_eq_none_iff.1 unused), List.flatMap_append]
    simp

theorem perm_messages_foldl_addMatch (found : List Match) (table : List (Text × Group)) :
    ((found.foldl addMatch table).flatMap fun e => e.2.messages).Perm
      ((table.flatMap fun e => e.2.messages) ++ found.map Match.index) := by
  induction found generalizing table with
  | nil => simp
  | cons m rest ih =>
    have step := (perm_messages_addMatch table m).append_right (rest.map Match.index)
    have whole := (ih (addMatch table m)).trans step
    simpa using whole

theorem perm_messages_exactGroups (found : List Match) :
    ((exactGroups found).flatMap Group.messages).Perm (found.map Match.index) := by
  unfold exactGroups
  rw [List.flatMap_map]
  simpa using perm_messages_foldl_addMatch found []

theorem perm_messages_addGroup (mode : Mode) (e : Group) (groups : List Group) :
    ((addGroup mode e groups).flatMap Group.messages).Perm
      (groups.flatMap Group.messages ++ e.messages) := by
  rcases addGroup_cases mode e groups with ⟨added, _⟩ | ⟨front, g, back, c, rfl, _, added⟩
  · rw [added, List.flatMap_append]
    simp
  · rw [added]
    simp only [List.flatMap_append, List.flatMap_cons, List.append_assoc]
    apply List.Perm.append_left
    have sorted : (ascending (g.messages ++ e.messages)).Perm (g.messages ++ e.messages) :=
      List.mergeSort_perm _ _
    refine (sorted.append_right _).trans ?_
    rw [List.append_assoc]
    exact List.perm_append_comm.append_left _

theorem perm_messages_foldl_addGroup (mode : Mode) (parts groups : List Group) :
    ((parts.foldl (fun groups g => addGroup mode g groups) groups).flatMap Group.messages).Perm
      (groups.flatMap Group.messages ++ parts.flatMap Group.messages) := by
  induction parts generalizing groups with
  | nil => simp
  | cons e rest ih =>
    have step := (perm_messages_addGroup mode e groups).append_right (rest.flatMap Group.messages)
    have whole := (ih (addGroup mode e groups)).trans step
    simpa using whole

/-- The messages of all groups are the matched messages. -/
theorem perm_messages_groupMatches (mode : Mode) (found : List Match) :
    ((groupMatches mode found).flatMap Group.messages).Perm (found.map Match.index) := by
  have ordered := (List.mergeSort_perm found fun a b => decide (a.index ≤ b.index)).map Match.index
  have exact := (perm_messages_exactGroups (inOrder found)).trans ordered
  have whole := perm_messages_foldl_addGroup mode (exactGroups (inOrder found)) []
  exact whole.trans exact

end Permutations

/-- Groups that list their messages in ascending order and stand by first message. -/
structure InSequence (groups : List Group) : Prop where
  inhabited : ∀ g ∈ groups, g.messages ≠ []
  ascending : ∀ g ∈ groups, g.messages.Pairwise (· < ·)
  ordered : groups.Pairwise fun a b => a.first < b.first

namespace InSequence
variable {mode : Mode} {groups front back rest parts : List Group} {g e : Group} {c : Schema}

theorem first_le (h : InSequence groups) (hg : g ∈ groups) {i : Int} (hi : i ∈ g.messages) :
    g.first ≤ i :=
  head_le_of_ascending (h.ascending g hg) hi

/-- A group keeps its first message as it takes up the messages of a later one. -/
theorem first_ascending_append (h : InSequence groups) (hg : g ∈ groups) (he : e ∈ groups)
    (later : g.first < e.first) (distinct : (g.messages ++ e.messages).Nodup) :
    (Group.mk c (SchemaInference.ascending (g.messages ++ e.messages))).first = g.first := by
  apply head_eq_of_ascending (ascending_pairwise distinct)
  · exact mem_ascending.2 (List.mem_append_left _ (head_mem (h.inhabited g hg)))
  · intro i hi
    rcases List.mem_append.1 (mem_ascending.1 hi) with hi | hi
    · exact h.first_le hg hi
    · exact Int.le_trans (Int.le_of_lt later) (h.first_le he hi)

/-- Joining a group to an earlier one leaves the others as they stand. -/
theorem absorb (h : InSequence (front ++ g :: back ++ e :: rest))
    (distinct : (g.messages ++ e.messages).Nodup) :
    InSequence (front ++ ⟨c, SchemaInference.ascending (g.messages ++ e.messages)⟩ :: back ++ rest)
      := by
  have hg : g ∈ front ++ g :: back ++ e :: rest := by simp
  have he : e ∈ front ++ g :: back ++ e :: rest := by simp
  have later : g.first < e.first :=
    (List.pairwise_append.1 h.ordered).2.2 g (by simp) e List.mem_cons_self
  have old {a : Group} (ha : a ∈ front ++ back ++ rest) : a ∈ front ++ g :: back ++ e :: rest := by
    simp only [List.mem_append, List.mem_cons] at ha ⊢
    tauto
  have either {a : Group} (ha : a ∈ front ++
      ⟨c, SchemaInference.ascending (g.messages ++ e.messages)⟩ :: back ++ rest) :
      a = ⟨c, SchemaInference.ascending (g.messages ++ e.messages)⟩ ∨
        a ∈ front ++ back ++ rest := by
    simp only [List.mem_append, List.mem_cons] at ha ⊢
    tauto
  constructor
  case inhabited =>
    intro a ha
    rcases either ha with rfl | ha
    · have mem := mem_ascending.2 (List.mem_append_left e.messages (head_mem (h.inhabited g hg)))
      exact List.ne_nil_of_mem mem
    · exact h.inhabited a (old ha)
  case ascending =>
    intro a ha
    rcases either ha with rfl | ha
    · exact ascending_pairwise distinct
    · exact h.ascending a (old ha)
  case ordered =>
    -- the first messages are those that were there, without that of `e`
    have firsts : ((front ++ g :: back ++ rest).map Group.first).Sublist
        ((front ++ g :: back ++ e :: rest).map Group.first) :=
      ((List.sublist_cons_self e rest).append_left _).map _
    have kept := (List.pairwise_map.2 h.ordered).sublist firsts
    apply List.pairwise_map.1
    simpa [h.first_ascending_append hg he later distinct] using kept

theorem addGroup (mode : Mode) (h : InSequence (groups ++ e :: rest))
    (distinct : ((groups ++ e :: rest).flatMap Group.messages).Nodup) :
    InSequence (addGroup mode e groups ++ rest) := by
  rcases addGroup_cases mode e groups with ⟨added, _⟩ | ⟨front, g, back, c, rfl, _, added⟩
  · rw [added]
    simpa using h
  · rw [added]
    apply h.absorb
    have both : (g.messages ++ e.messages).Sublist
        ((front ++ g :: back ++ e :: rest).flatMap Group.messages) := by
      have pair : [g, e].Sublist (front ++ g :: back ++ e :: rest) := by
        simp
      simpa using pair.flatMap Group.messages
    exact both.nodup distinct

theorem foldl_addGroup (mode : Mode) (h : InSequence (groups ++ parts))
    (distinct : ((groups ++ parts).flatMap Group.messages).Nodup) :
    InSequence (parts.foldl (fun groups g => SchemaInference.addGroup mode g groups) groups) := by
  induction parts generalizing groups with
  | nil => simpa using h
  | cons e rest ih =>
    apply ih (h.addGroup mode distinct)
    have moved := (perm_messages_addGroup mode e groups).append_right (rest.flatMap Group.messages)
    rw [List.flatMap_append]
    refine moved.nodup_iff.2 ?_
    simpa using distinct

end InSequence

theorem Grouped.inSequence {κ : Type} {key : Schema → κ} {seen : Match → Prop}
    {groups : List Group} (h : Grouped key seen groups) : InSequence groups :=
  ⟨h.inhabited, h.ascending, h.ordered⟩

theorem inSequence_groupMatches (mode : Mode) {found : List Match}
    (distinct : (found.map Match.index).Nodup) : InSequence (groupMatches mode found) := by
  apply InSequence.foldl_addGroup
  · exact (grouped_exactGroups (inOrder_pairwise distinct)).inSequence
  · have ordered := inOrder_pairwise distinct
    refine (perm_messages_exactGroups (inOrder found)).nodup_iff.2 ?_
    apply List.pairwise_map.2
    apply ordered.imp
    omega

/-- The groups hold the number of every match once, in ascending order. -/
structure Conserves (found : List Match) (groups : List Group) : Prop extends
    InSequence groups where
  disjoint : groups.Pairwise fun a b => ∀ i ∈ a.messages, i ∉ b.messages
  members : ∀ i, (∃ g ∈ groups, i ∈ g.messages) ↔ ∃ m ∈ found, m.index = i

theorem conserves_groupMatches (mode : Mode) {found : List Match}
    (distinct : (found.map Match.index).Nodup) : Conserves found (groupMatches mode found) := by
  have perm := perm_messages_groupMatches mode found
  refine ⟨inSequence_groupMatches mode distinct, ?_, fun i => ?_⟩
  · have nodup := perm.nodup_iff.2 distinct
    exact (List.nodup_flatMap.1 nodup).2
  · have mem := perm.mem_iff (a := i)
    rwa [List.mem_flatMap, List.mem_map] at mem

section Ranking
variable {groups ranked : List Group}

/-- Whether groups stand by size, and those of one size by first message. -/
def Ranked (groups : List Group) : Prop :=
  groups.Pairwise fun a b => b.messages.length ≤ a.messages.length ∧
    (a.messages.length = b.messages.length → a.first < b.first)

theorem ranksBefore_iff {a b : Group} : a.ranksBefore b = true ↔
    b.messages.length < a.messages.length ∨
      a.messages.length = b.messages.length ∧ a.first ≤ b.first := by
  simp [Group.ranksBefore]

theorem ranking_pairwise (groups : List Group) :
    (ranking groups).Pairwise fun a b => a.ranksBefore b = true := by
  apply List.pairwise_mergeSort
  · intro a b c hab hbc
    rw [ranksBefore_iff] at hab hbc ⊢
    omega
  · intro a b
    rw [Bool.or_eq_true, ranksBefore_iff, ranksBefore_iff]
    omega

theorem ranked_ranking (distinct : (groups.map Group.first).Nodup) : Ranked (ranking groups) := by
  have apart := List.pairwise_map.1
    (((List.mergeSort_perm groups Group.ranksBefore).map Group.first).nodup_iff.2 distinct)
  apply ((ranking_pairwise groups).and apart).imp
  intro a b h
  obtain ⟨before, ne⟩ := h
  rw [ranksBefore_iff] at before
  omega

/-- The ranking is the one order of the groups in which they are ranked. -/
theorem eq_ranking_iff (distinct : (groups.map Group.first).Nodup) :
    ranked = ranking groups ↔ ranked.Perm groups ∧ Ranked ranked := by
  have perm : (ranking groups).Perm groups := List.mergeSort_perm groups Group.ranksBefore
  constructor
  · rintro rfl
    exact ⟨perm, ranked_ranking distinct⟩
  · intro h
    obtain ⟨same, sorted⟩ := h
    apply (same.trans perm.symm).eq_of_pairwise _ sorted (ranked_ranking distinct)
    intro a b _ _ hab hba
    omega

end Ranking

section Batches
variable {settings : Settings} {name : Text} {messages : List Message}

/-- Every message has an outcome, which stands where the message stands. -/
theorem getElem?_inferMessages (index : Int) (i : Nat) :
    (inferMessages settings name index messages)[i]? =
      messages[i]?.map (inferMessage settings name (index + i)) := by
  induction messages generalizing index i with
  | nil => rfl
  | cons m rest ih =>
    cases i with
    | zero => simp [inferMessages]
    | succ i =>
      have next : index + 1 + (i : Int) = index + (i + 1 : Nat) := by omega
      rw [inferMessages, List.getElem?_cons_succ, List.getElem?_cons_succ, ih, next]

theorem index_of_mem_inferMessages {index : Int} {r : MessageOutcome}
    (h : r ∈ inferMessages settings name index messages) :
    index ≤ r.index ∧ r.index < index + messages.length := by
  induction messages generalizing index with
  | nil => cases h
  | cons m rest ih =>
    rw [List.length_cons]
    rcases List.mem_cons.1 h with rfl | h
    · have own : (inferMessage settings name index m).index = index := rfl
      omega
    · have later := ih h
      omega

theorem nodup_index_inferMessages (index : Int) :
    ((inferMessages settings name index messages).map MessageOutcome.index).Nodup := by
  induction messages generalizing index with
  | nil => exact .nil
  | cons m rest ih =>
    apply List.nodup_cons.2
    refine ⟨fun used => ?_, ih (index + 1)⟩
    obtain ⟨r, hr, same⟩ := List.mem_map.1 used
    have later := index_of_mem_inferMessages hr
    have same : r.index = index := same
    omega

theorem groupMatches_eq_nil_iff (mode : Mode) {found : List Match} :
    groupMatches mode found = [] ↔ found = [] := by
  constructor
  · intro none
    have perm := perm_messages_groupMatches mode found
    rw [none] at perm
    exact List.map_eq_nil_iff.1 perm.nil_eq.symm
  · rintro rfl
    simp [groupMatches, inOrder, exactGroups]

theorem inferBatch_eq (limit : Option Int) :
    inferBatch settings name limit messages =
      if (inferMessages settings name 0 messages).filterMap MessageOutcome.match? = [] then
        .error ⟨.nothingInferred messages.length, none⟩
      else .ok (entriesOf settings.mode limit
        (ranking (groupOutcomes settings.mode (inferMessages settings name 0 messages)))) := by
  have empty : ranking (groupOutcomes settings.mode (inferMessages settings name 0 messages)) = []
      ↔ (inferMessages settings name 0 messages).filterMap MessageOutcome.match? = [] := by
    rw [← groupMatches_eq_nil_iff settings.mode, ← List.length_eq_zero_iff, ranking,
      List.length_mergeSort, List.length_eq_zero_iff]
    rfl
  unfold inferBatch
  split
  · next none => rw [if_pos (empty.1 none)]
  · next some =>
    rw [if_neg]
    intro none
    exact some (empty.2 none)

theorem mem_matches_ne_nil_iff {results : List MessageOutcome} :
    results.filterMap MessageOutcome.match? ≠ [] ↔ ∃ r ∈ results, r.match? ≠ none := by
  rw [Ne, List.filterMap_eq_nil_iff]
  push Not
  rfl

/-- A batch fails where no message matches, and in no other way. -/
theorem inferBatch_eq_error_iff (limit : Option Int) {e : Located Failure} :
    inferBatch settings name limit messages = .error e ↔
      e = ⟨.nothingInferred messages.length, none⟩ ∧
        ∀ r ∈ inferMessages settings name 0 messages, r.match? = none := by
  rw [inferBatch_eq, ← List.filterMap_eq_nil_iff]
  split
  · next none => simp [none, eq_comm]
  · next some => simp [some]

theorem inferBatch_eq_ok_iff (limit : Option Int) {entries : List Entry} :
    inferBatch settings name limit messages = .ok entries ↔
      (∃ r ∈ inferMessages settings name 0 messages, r.match? ≠ none) ∧
        entries = entriesOf settings.mode limit
          (ranking (groupOutcomes settings.mode (inferMessages settings name 0 messages))) := by
  rw [inferBatch_eq, ← mem_matches_ne_nil_iff]
  split
  · next none => simp [none]
  · next some => simp [some, eq_comm]

end Batches

/--
Grouping loses, repeats and misplaces no message, whatever the schemas, and its groups have
one ranking.  A strict batch fails if no message matched, and else reports the first groups
of the ranking, each with its messages and their number.
-/
theorem groupOutcomes_conserves (mode : Mode) {results : List MessageOutcome}
    (distinct : (results.map MessageOutcome.index).Nodup) :
    Conserves (results.filterMap MessageOutcome.match?) (groupOutcomes mode results) ∧
    (∀ ranked, ranked = ranking (groupOutcomes mode results) ↔
      ranked.Perm (groupOutcomes mode results) ∧ Ranked ranked) ∧
    ∀ (maxDepth : Int) (name : Text) (messages : List Message) (k : Nat),
      let outcomes := inferMessages ⟨.strict, maxDepth⟩ name 0 messages
      (∀ i : Nat, outcomes[i]? = messages[i]?.map (inferMessage ⟨.strict, maxDepth⟩ name i)) ∧
      (outcomes.map MessageOutcome.index).Nodup ∧
      (∀ e, inferBatch ⟨.strict, maxDepth⟩ name (some k) messages = .error e ↔
        e = ⟨.nothingInferred messages.length, none⟩ ∧ ∀ r ∈ outcomes, r.match? = none) ∧
      (∀ entries, inferBatch ⟨.strict, maxDepth⟩ name (some k) messages = .ok entries ↔
        (∃ r ∈ outcomes, r.match? ≠ none) ∧
          entries = ((ranking (groupOutcomes .strict outcomes)).take k).map (Group.entry true)) ∧
      ∀ g : Group, (g.entry true).toJson = .object [("schema", g.schema.toJson),
        ("messagesMatched", .array (g.messages.map .integer)),
        ("numMessagesMatched", .integer g.messages.length)] := by
  have found := matches_sublist.nodup distinct
  have conserves := conserves_groupMatches mode found
  have firsts : ((groupOutcomes mode results).map Group.first).Nodup := by
    apply List.pairwise_map.2
    apply conserves.ordered.imp
    intro a b before
    omega
  refine ⟨conserves, fun ranked => eq_ranking_iff firsts, fun maxDepth name messages k => ?_⟩
  refine ⟨fun i => ?_, nodup_index_inferMessages 0, fun e => inferBatch_eq_error_iff _,
    fun entries => ?_, fun g => rfl⟩
  · rw [getElem?_inferMessages, Int.zero_add]
  rw [inferBatch_eq_ok_iff]
  simp [entriesOf, upTo]

/--
Two unions of one shape that have no join, a string between them, and a failure; and a batch
of numbers of two widths with one out of range between them and a boolean behind them.
-/
theorem groupOutcomes_conserves_of_conflict :
    let mixed (k : Kind) : Schema := .union [.record "a" [("x", .primitive k)],
      .record "b" [("y", .primitive .int)]]
    let results : List MessageOutcome := [⟨2, .ok (mixed .long)⟩, ⟨0, .ok (mixed .int)⟩,
      ⟨3, .error ⟨.emptyFieldName, none⟩⟩, ⟨1, .ok (.primitive .string)⟩]
    let row (n : Int) : Message := .value (.object [("a", .integer n)])
    let messages := [row 1, row 9223372036854775808, row 3000000000, .value (.scalar (.bool true))]
    (results.map MessageOutcome.index).Nodup ∧
      Conserves (results.filterMap MessageOutcome.match?) (groupOutcomes .strict results) ∧
      inferBatch ⟨.strict, 100⟩ messageName (some 1) messages =
        .ok [⟨.record "Record" [("a", .primitive .long)], some [0, 2]⟩] := by
  intro mixed results row messages
  have distinct : (results.map MessageOutcome.index).Nodup := by decide
  obtain ⟨conserves, -, batches⟩ := groupOutcomes_conserves .strict distinct
  obtain ⟨outcome, -, -, succeeds, -⟩ := batches 100 messageName messages 1
  let found : List Match := [⟨0, .record "Record" [("a", .primitive .int)]⟩,
    ⟨2, .record "Record" [("a", .primitive .long)]⟩, ⟨3, .primitive .boolean⟩]
  let groups (is : List Int) : List Group :=
    [⟨.record "Record" [("a", .primitive .long)], is⟩, ⟨.primitive .boolean, [3]⟩]
  have exact : exactGroups found = [⟨.record "Record" [("a", .primitive .int)], [0]⟩,
    ⟨.record "Record" [("a", .primitive .long)], [2]⟩, ⟨.primitive .boolean, [3]⟩] := by
      decide +kernel
  have matched : (inferMessages ⟨.strict, 100⟩ messageName 0 messages).filterMap
    MessageOutcome.match? = found := rfl
  have grouped : groupOutcomes .strict (inferMessages ⟨.strict, 100⟩ messageName 0 messages) =
      groups [0, 2] := by
    rw [groupOutcomes, matched, groupMatches_eq .strict (.refl found) (by decide) exact]
    exact congrArg groups (ascending_eq (.refl _) (by decide))
  have ranked : groups [0, 2] = ranking (groups [0, 2]) :=
    (eq_ranking_iff (by decide)).2 ⟨.refl _, List.pairwise_pair.2 (by decide)⟩
  have first : inferMessage ⟨.strict, 100⟩ messageName 0 (row 1) ∈
      inferMessages ⟨.strict, 100⟩ messageName 0 messages := List.mem_of_getElem? (outcome 0)
  refine ⟨distinct, conserves, (succeeds _).2 ⟨⟨_, first, Option.some_ne_none _⟩, ?_⟩⟩
  rw [grouped, ← ranked]
  rfl

end SchemaInference
