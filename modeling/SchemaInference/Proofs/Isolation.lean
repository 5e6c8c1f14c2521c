import SchemaInference.Proofs.Conservation

/-!
# Failing messages

Numbers that grow in step leave the work on a batch as it is: sorting, grouping, bringing
groups together and ranking commute with a renumbering that keeps the order.  A message
without a schema only moves the numbers behind it, so that it affects no other message.
-/

namespace SchemaInference

section Renumbering
variable {σ : Int → Int}

theorem ascending_map (keeps : ∀ i j, σ i ≤ σ j ↔ i ≤ j) (is : List Int) :
    ascending (is.map σ) = (ascending is).map σ := by
  unfold ascending
  rw [List.map_mergeSort]
  intro i _ j _
  simp [keeps]

def Group.renumber (σ : Int → Int) (g : Group) : Group := ⟨g.schema, g.messages.map σ⟩

theorem inOrder_renumber (keeps : ∀ i j, σ i ≤ σ j ↔ i ≤ j) (found : List Match) :
    inOrder (found.map (Match.renumber σ)) = (inOrder found).map (Match.renumber σ) := by
  unfold inOrder
  rw [List.map_mergeSort]
  intro m _ n _
  simp [Match.renumber, keeps]

theorem get?_renumber (text : Text) (table : List (Text × Group)) :
    Keyed.get? text (table.map fun e => (e.1, e.2.renumber σ)) =
      (Keyed.get? text table).map (Group.renumber σ) := by
  induction table with
  | nil => rfl
  | cons e rest ih =>
    rw [List.map_cons, Keyed.get?, Keyed.get?, ih]
    split <;> rfl

theorem put_renumber (text : Text) (g : Group) (table : List (Text × Group)) :
    Keyed.put text (g.renumber σ) (table.map fun e => (e.1, e.2.renumber σ)) =
      (Keyed.put text g table).map fun e => (e.1, e.2.renumber σ) := by
  induction table with
  | nil => rfl
  | cons e rest ih =>
    rw [List.map_cons, Keyed.put, Keyed.put, ih]
    split <;> rfl

theorem addMatch_renumber (table : List (Text × Group)) (m : Match) :
    addMatch (table.map fun e => (e.1, e.2.renumber σ)) (m.renumber σ) =
      (addMatch table m).map fun e => (e.1, e.2.renumber σ) := by
  unfold addMatch
  dsimp only
  have text : (m.renumber σ).schema.text = m.schema.text := rfl
  rw [text, get?_renumber]
  cases Keyed.get? m.schema.text table with
  | none => exact put_renumber m.schema.text ⟨m.schema, [m.index]⟩ table
  | some g =>
    have grown : Group.mk g.schema ((g.messages ++ [m.index]).map σ) =
        { g.renumber σ with messages := (g.renumber σ).messages ++ [(m.renumber σ).index] } := by
      simp [Group.renumber, Match.renumber]
    rw [Option.map_some]
    dsimp only
    rw [← grown]
    exact put_renumber m.schema.text { g with messages := g.messages ++ [m.index] } table

theorem exactGroups_renumber (found : List Match) :
    exactGroups (found.map (Match.renumber σ)) = (exactGroups found).map (Group.renumber σ) := by
  have folded : ∀ table : List (Text × Group),
      (found.map (Match.renumber σ)).foldl addMatch (table.map fun e => (e.1, e.2.renumber σ)) =
        (found.foldl addMatch table).map fun e => (e.1, e.2.renumber σ) := by
    induction found with
    | nil => exact fun _ => rfl
    | cons m rest ih =>
      intro table
      rw [List.map_cons, List.foldl_cons, List.foldl_cons, addMatch_renumber, ih]
  unfold exactGroups
  have whole := folded []
  rw [List.map_nil] at whole
  rw [whole, List.map_map, List.map_map]
  rfl

theorem addGroup_renumber (keeps : ∀ i j, σ i ≤ σ j ↔ i ≤ j) (mode : Mode) (e : Group)
    (groups : List Group) :
    addGroup mode (e.renumber σ) (groups.map (Group.renumber σ)) =
      (addGroup mode e groups).map (Group.renumber σ) := by
  induction groups with
  | nil => rfl
  | cons g rest ih =>
    have same : coalesce? mode (g.renumber σ) (e.renumber σ) = coalesce? mode g e := rfl
    rw [List.map_cons, addGroup, addGroup, same, ih]
    cases coalesce? mode g e with
    | none => rfl
    | some c =>
      have merged : ascending ((g.renumber σ).messages ++ (e.renumber σ).messages) =
          (ascending (g.messages ++ e.messages)).map σ := by
        rw [← ascending_map keeps, List.map_append]
        rfl
      dsimp only
      rw [merged]
      rfl

/-- Grouping commutes with a renumbering that keeps the order. -/
theorem groupMatches_renumber (keeps : ∀ i j, σ i ≤ σ j ↔ i ≤ j) (mode : Mode)
    (found : List Match) :
    groupMatches mode (found.map (Match.renumber σ)) =
      (groupMatches mode found).map (Group.renumber σ) := by
  have folded : ∀ parts groups : List Group,
      (parts.map (Group.renumber σ)).foldl (fun groups g => addGroup mode g groups)
          (groups.map (Group.renumber σ)) =
        (parts.foldl (fun groups g => addGroup mode g groups) groups).map (Group.renumber σ) := by
    intro parts
    induction parts with
    | nil => exact fun _ => rfl
    | cons e rest ih =>
      intro groups
      rw [List.map_cons, List.foldl_cons, List.foldl_cons, addGroup_renumber keeps, ih]
  unfold groupMatches
  rw [inOrder_renumber keeps, exactGroups_renumber]
  exact folded _ []

theorem Group.first_renumber {g : Group} (full : g.messages ≠ []) :
    (g.renumber σ).first = σ g.first := by
  obtain ⟨schema, messages⟩ := g
  cases messages with
  | nil => exact absurd rfl full
  | cons i rest => rfl

theorem ranking_renumber (keeps : ∀ i j, σ i ≤ σ j ↔ i ≤ j) {groups : List Group}
    (full : ∀ g ∈ groups, g.messages ≠ []) :
    ranking (groups.map (Group.renumber σ)) = (ranking groups).map (Group.renumber σ) := by
  unfold ranking
  rw [List.map_mergeSort]
  intro a ha b hb
  have lengths (g : Group) : (g.renumber σ).messages.length = g.messages.length :=
    List.length_map _
  unfold Group.ranksBefore
  rw [lengths, lengths, Group.first_renumber (full a ha), Group.first_renumber (full b hb)]
  simp only [keeps]

def Entry.renumber (σ : Int → Int) (e : Entry) : Entry :=
  ⟨e.schema, e.messages.map (List.map σ)⟩

theorem entry_renumber (withMessages : Bool) (g : Group) :
    (g.renumber σ).entry withMessages = (g.entry withMessages).renumber σ := by
  cases withMessages <;> rfl

theorem upTo_map {α β : Type} (limit : Option Int) (f : α → β) (xs : List α) :
    upTo limit (xs.map f) = (upTo limit xs).map f := by
  cases limit with
  | none => rfl
  | some n =>
    simp only [upTo, List.length_map, ← List.map_take]
    split <;> rfl

theorem entriesOf_renumber (mode : Mode) (limit : Option Int) (ranked : List Group) :
    entriesOf mode limit (ranked.map (Group.renumber σ)) =
      (entriesOf mode limit ranked).map (Entry.renumber σ) := by
  cases mode with
  | strict =>
    simp only [entriesOf, upTo_map, List.map_map]
    exact List.map_congr_left fun g _ => entry_renumber true g
  | lenient =>
    simp only [entriesOf, ← List.map_take, List.map_map]
    exact List.map_congr_left fun g _ => entry_renumber false g

theorem entries_renumber (keeps : ∀ i j, σ i ≤ σ j ↔ i ≤ j) (mode : Mode)
    (limit : Option Int) {found : List Match} (distinct : (found.map Match.index).Nodup) :
    entriesOf mode limit (ranking (groupMatches mode (found.map (Match.renumber σ)))) =
      (entriesOf mode limit (ranking (groupMatches mode found))).map (Entry.renumber σ) := by
  have full := (inSequence_groupMatches mode distinct).inhabited
  rw [groupMatches_renumber keeps, ranking_renumber keeps full, entriesOf_renumber]

end Renumbering

section Batches
variable {settings : Settings} {name : Text} {m : Message} {xs ys : List Message}

theorem inferMessages_append (index : Int) : inferMessages settings name index (xs ++ ys) =
    inferMessages settings name index xs ++
      inferMessages settings name (index + xs.length) ys := by
  induction xs generalizing index with
  | nil => simp [inferMessages]
  | cons x xs ih =>
    have next : index + 1 + (xs.length : Int) = index + (x :: xs).length := by
      rw [List.length_cons]
      omega
    rw [List.cons_append, inferMessages, inferMessages, ih, next]
    rfl

theorem read_toOption (i j : Int) (m : Message) :
    (m.read i).toOption = (m.read j).toOption := by
  cases m with
  | text s =>
    simp only [Message.read]
    cases Json.read s <;> rfl
  | octets bytes =>
    simp only [Message.read]
    cases Encoding.decodeDocument bytes with
    | error e => rfl
    | ok t =>
      simp only [Except.mapError, bind, Except.bind]
      cases Json.readDecoded t <;> rfl
  | value v => rfl

/-- The number of a message matters for the report of a failure only. -/
theorem match?_inferMessage (i j : Int) (m : Message) :
    (inferMessage settings name j m).match? =
      (inferMessage settings name i m).match?.map fun n => ⟨j, n.schema⟩ := by
  have same := read_toOption i j m
  simp only [inferMessage, MessageOutcome.match?]
  cases hi : m.read i <;> cases hj : m.read j <;> rw [hi, hj] at same
  · rfl
  · cases same
  · cases same
  · cases same
    simp only [Except.mapError, bind, Except.bind]
    cases inferDocument settings name _ <;> rfl

theorem matches_inferMessages_shift (index : Int) :
    (inferMessages settings name (index + 1) ys).filterMap MessageOutcome.match? =
      ((inferMessages settings name index ys).filterMap MessageOutcome.match?).map
        (Match.renumber (· + 1)) := by
  induction ys generalizing index with
  | nil => rfl
  | cons y ys ih =>
    rw [inferMessages, inferMessages, List.filterMap_cons, List.filterMap_cons, ih,
      match?_inferMessage index (index + 1)]
    have own := match?_cases (inferMessage settings name index y)
    rcases own with none | ⟨n, some, at_⟩
    · rw [none]
      rfl
    · rw [some]
      have at_ : n.index = index := at_
      simp [Match.renumber, at_]

/-- Numbers once a message stands at `place`: those from there on move up by one. -/
def moveUpFrom (place : Int) (i : Int) : Int := if i < place then i else i + 1

theorem moveUpFrom_le_iff (place i j : Int) :
    moveUpFrom place i ≤ moveUpFrom place j ↔ i ≤ j := by
  unfold moveUpFrom
  split <;> split <;> omega

theorem index_of_mem_matches {n : Match} {index : Int}
    (h : n ∈ (inferMessages settings name index ys).filterMap MessageOutcome.match?) :
    index ≤ n.index ∧ n.index < index + ys.length := by
  obtain ⟨r, hr, found⟩ := List.mem_filterMap.1 h
  rcases match?_cases r with none | ⟨n', some, at_⟩
  · rw [none] at found
    cases found
  · cases some.symm.trans found
    rw [at_]
    exact index_of_mem_inferMessages hr

/-- The matches around a message without a schema are those without it, renumbered. -/
theorem matches_insert_failing {i : Int} (failed : (inferMessage settings name i m).match? = none) :
    (inferMessages settings name 0 (xs ++ m :: ys)).filterMap MessageOutcome.match? =
      ((inferMessages settings name 0 (xs ++ ys)).filterMap MessageOutcome.match?).map
        (Match.renumber (moveUpFrom xs.length)) := by
  have here : (inferMessage settings name (0 + xs.length) m).match? = none := by
    rw [match?_inferMessage i, failed]
    rfl
  rw [inferMessages_append, inferMessages_append, inferMessages, List.filterMap_append,
    List.filterMap_append, List.filterMap_cons_none here, matches_inferMessages_shift,
    List.map_append]
  congr 1
  · -- the numbers before the message stay
    refine (List.map_id _).symm.trans (List.map_congr_left fun n hn => ?_)
    have before := index_of_mem_matches hn
    have stays : moveUpFrom xs.length n.index = n.index := by
      unfold moveUpFrom
      rw [if_pos (by omega)]
    simp [Match.renumber, stays]
  · apply List.map_congr_left
    intro n hn
    have behind := index_of_mem_matches hn
    have moves : moveUpFrom xs.length n.index = n.index + 1 := by
      unfold moveUpFrom
      rw [if_neg (by omega)]
    simp [Match.renumber, moves]

end Batches

/--
A message without a schema affects no other message: without it the batch fails exactly where
it fails with it, and the entries differ in the numbers behind the message only.
-/
theorem inferBatch_insert_failing {settings : Settings} {name : Text} {limit : Option Int}
    {xs ys : List Message} {m : Message} {i : Int} {e : Located Failure}
    (failed : (inferMessage settings name i m).outcome = .error e) :
    (inferBatch settings name limit (xs ++ [m] ++ ys) =
        .error ⟨.nothingInferred (xs ++ [m] ++ ys).length, none⟩ ↔
      inferBatch settings name limit (xs ++ ys) =
        .error ⟨.nothingInferred (xs ++ ys).length, none⟩) ∧
    ∀ entries, inferBatch settings name limit (xs ++ ys) = .ok entries →
      inferBatch settings name limit (xs ++ [m] ++ ys) =
        .ok (entries.map (Entry.renumber (moveUpFrom xs.length))) := by
  have none : (inferMessage settings name i m).match? = none := by
    unfold MessageOutcome.match?
    rw [failed]
  have found := @matches_insert_failing settings name m xs ys i none
  have whole : xs ++ [m] ++ ys = xs ++ m :: ys := by simp
  rw [whole, inferBatch_eq, inferBatch_eq, found]
  have distinct := matches_sublist.nodup (@nodup_index_inferMessages settings name (xs ++ ys) 0)
  have entries := entries_renumber (moveUpFrom_le_iff xs.length) settings.mode limit distinct
  simp only [List.map_eq_nil_iff, groupOutcomes, found, entries]
  split
  · simp
  · simp

/-- An unfinished text between numbers of two widths, with a boolean behind them. -/
theorem inferBatch_insert_failing_text :
    let row (n : Int) : Message := .value (.object [("a", .integer n)])
    let schema : Schema := .record "Record" [("a", .primitive .long)]
    (inferMessage {} messageName 1 (.text "[")).outcome =
        .error ⟨.unreadable (.text (.malformed .missingValue ⟨1, 1, 2⟩)), none⟩ ∧
      inferBatch {} messageName none ([row 1] ++ [.text "["] ++
          [row 3000000000, .value (.scalar (.bool true))]) =
        .ok [⟨schema, some [0, 2]⟩, ⟨.primitive .boolean, some [3]⟩] := by
  intro row schema
  have failed : (inferMessage {} messageName 1 (.text "[")).outcome =
      .error ⟨.unreadable (.text (.malformed .missingValue ⟨1, 1, 2⟩)), none⟩ := by cbv
  have batch : inferBatch {} messageName none ([row 1] ++
      [row 3000000000, .value (.scalar (.bool true))]) =
        .ok [⟨schema, some [0, 1]⟩, ⟨.primitive .boolean, some [2]⟩] := by
    let found : List Match := [⟨0, .record "Record" [("a", .primitive .int)]⟩, ⟨1, schema⟩,
      ⟨2, .primitive .boolean⟩]
    let groups (is : List Int) : List Group := [⟨schema, is⟩, ⟨.primitive .boolean, [2]⟩]
    have exact : exactGroups found = [⟨.record "Record" [("a", .primitive .int)], [0]⟩,
        ⟨schema, [1]⟩, ⟨.primitive .boolean, [2]⟩] := by
      decide +kernel
    have matched : (inferMessages {} messageName 0 ([row 1] ++
        [row 3000000000, .value (.scalar (.bool true))])).filterMap MessageOutcome.match? =
      found := rfl
    have grouped : groupOutcomes .strict (inferMessages {} messageName 0
        ([row 1] ++ [row 3000000000, .value (.scalar (.bool true))])) = groups [0, 1] := by
      rw [groupOutcomes, matched, groupMatches_eq .strict (.refl found) (by decide) exact]
      exact congrArg groups (ascending_eq (.refl _) (by decide))
    have ranked : groups [0, 1] = ranking (groups [0, 1]) :=
      (eq_ranking_iff (by decide)).2 ⟨.refl _, List.pairwise_pair.2 (by decide)⟩
    rw [inferBatch, grouped, ← ranked]
    rfl
  exact ⟨failed, (inferBatch_insert_failing failed).2 _ batch⟩

end SchemaInference
