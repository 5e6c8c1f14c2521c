import SchemaInference.Proofs.MessageFiles

/-!
# What stops the loading of messages

A line that is no JSON is kept as text, but a line that is JSON beyond what is read, such
as an integer of too many digits, stops the loading of all files.
-/

namespace SchemaInference

namespace Json

variable {p : CodePoint} {ds rest : Text}

/-! ## Long integers -/

theorem scanConstant_of_isDigit (h : isDigit p = true) : scanConstant (p :: rest) = none := by
  have heads : ∀ c ∈ constants, ∃ q t, c.1 = q :: t ∧ isDigit q = false := by
    simp [constants, Text.ofString, isDigit, CodePoint.number]
  refine Option.map_eq_none_iff.2 (List.find?_eq_none.2 fun c hc begins => ?_)
  obtain ⟨q, t, spelled, other⟩ := heads c hc
  rw [spelled, List.isPrefixOf_iff_prefix, List.cons_prefix_cons] at begins
  rw [begins.1, h] at other
  cases other

theorem scanNumber_of_digits (lead : p ≠ .char '0') (digits : ∀ q ∈ p :: ds, isDigit q = true) :
    scanNumber (p :: ds) = some (integerToken false (p :: ds), (p :: ds).length) := by
  obtain ⟨first, others⟩ := List.forall_mem_cons.1 digits
  have minus : minusSign (p :: ds) = [] := by
    rw [minusSign_cons, if_neg]
    rintro rfl
    cases first
  have whole : wholeDigits (p :: ds) = p :: ds := by
    rw [wholeDigits, if_neg lead, if_pos first, List.takeWhile_eq_self_iff.2 others]
  rw [scanNumber_eq]
  simp [minus, whole, fraction, exponent]

theorem scan_of_isDigit (h : isDigit p = true) : scan p rest =
    match scanWord (p :: rest) with
    | some (token, length) => (token, length - 1)
    | none => (.stray, rest.length) := by
  unfold scan
  split
  case h_8 => rfl
  all_goals cases h

theorem tokens_of_digits (lead : p ≠ .char '0') (digits : ∀ q ∈ p :: ds, isDigit q = true) :
    tokens (p :: ds) = [integerToken false (p :: ds)] := by
  have first := digits p List.mem_cons_self
  have filled : isBlank p = false := by
    refine Bool.eq_false_iff.2 fun blank => ?_
    rw [isDigit_of_isBlank (isBlank_text_of_isBlank blank)] at first
    cases first
  have word : scan p ds = (integerToken false (p :: ds), ds.length) := by
    rw [scan_of_isDigit first, scanWord, scanConstant_of_isDigit first,
      scanNumber_of_digits lead digits]
    rfl
  rw [tokens_cons filled, word, List.drop_length, tokens_nil]

/-- An integer of more digits than the limit is not read. -/
theorem read_of_long_digits (lead : p ≠ .char '0') (digits : ∀ q ∈ p :: ds, isDigit q = true)
    (long : digitLimit < (p :: ds).length) :
    Json.read (p :: ds) = .error (.overlong (p :: ds).length) := by
  have cut := tokens_of_digits lead digits
  rw [integerToken, if_pos long, tokens] at cut
  unfold read
  split
  · next same =>
    cases same
    have := digits _ List.mem_cons_self
    cases this
  · rw [readDecoded]
    simp only [cut]
    rfl

theorem read_of_ones {n : Nat} (long : digitLimit < n + 1) :
    Json.read (List.replicate (n + 1) (.char '1')) = .error (.overlong (n + 1)) := by
  have digits : ∀ p ∈ List.replicate (n + 1) (CodePoint.char '1'), isDigit p = true :=
    List.forall_mem_replicate.2 (.inr rfl)
  have length : (List.replicate (n + 1) (CodePoint.char '1')).length = n + 1 :=
    List.length_replicate
  rw [List.replicate_succ] at digits length ⊢
  rw [read_of_long_digits (by decide) digits (by rwa [length]), length]

end Json

/-! ## Which files are loaded -/

namespace Host

open MessageFile

variable {host : Host} {names texts : List Text}

/--
Files are loaded exactly if every text that is tried in them is read or no JSON, and then give
the messages of their texts in order.  What stops the loading otherwise is a whole file or a
line that is JSON beyond what is read.
-/
theorem readMessages_iff_loadable
    (files : List.Forall₂ (fun name t => host.readText name = .ok t) names texts) :
    (∀ ms, host.readMessages names = .ok ms ↔
      (∀ t ∈ texts, Loadable t.strip) ∧
        texts.flatMap (fun t => textMessages t.strip) = ms) ∧
    ∀ e, host.readMessages names = .error e →
      ∃ t ∈ texts, ∃ tried ∈ t.strip :: filledLines t.strip, ∃ fault,
        Json.read tried = .error fault ∧ fault.isMalformed = false ∧ e = .text fault :=
  ⟨fun _ => readMessages_eq_ok files, fun _ => exists_tried_of_readMessages files⟩

/-- A broken line before a value, a document that is an array, and a blank file. -/
theorem readMessages_iff_loadable_of_three_files :
    let broken : Text := "oops\n[1]"
    let document : Text := " [2, \"oops\"]\n"
    let host := Host.ofPlain fun name =>
      if name = "broken" then broken else if name = "document" then document else "\n"
    host.readMessages ["broken", "document", "blank"] = .ok [.text "oops",
      .value (.array [.integer 1]), .value (.integer 2), .text "oops"] := by
  intro broken document host
  have found : host.readText "broken" = .ok broken :=
    readText_ofPlain_of_not_mem (by decide) (by decide)
  have found' : host.readText "document" = .ok document :=
    readText_ofPlain_of_not_mem (by decide) (by decide)
  have found'' : host.readText "blank" = .ok "\n" :=
    readText_ofPlain_of_not_mem (by decide) (by decide)
  have stripped : broken.strip = "oops\n[1]" := by decide
  have stripped' : document.strip = "[2, \"oops\"]" := by decide
  have stripped'' : Text.strip "\n" = [] := by decide
  have cut : filledLines "oops\n[1]" = (["oops", "[1]"] : List Text) := by decide
  have malformed : Json.read "oops\n[1]" = .error (.malformed .missingValue ⟨0, 1, 1⟩) := by cbv
  have array : Json.read "[2, \"oops\"]" = .ok (.array [.integer 2, .string "oops"]) := by cbv
  have empty : Json.read [] = .error (.malformed .missingValue ⟨0, 1, 1⟩) := by cbv
  have oops : Json.read "oops" = .error (.malformed .missingValue ⟨0, 1, 1⟩) := by cbv
  have one : Json.read "[1]" = .ok (.array [.integer 1]) := by cbv
  have loadable : Loadable "oops\n[1]" := by
    refine ⟨settled_of_malformed malformed, fun _ => ?_⟩
    simp [cut, settled_of_malformed oops, settled_of_read one]
  have loadable' : Loadable "[2, \"oops\"]" :=
    ⟨settled_of_read array, fun none => absurd array (none _)⟩
  have none : filledLines [] = [] := rfl
  have loadable'' : Loadable [] := by
    refine ⟨settled_of_malformed empty, fun _ => ?_⟩
    simp [none]
  have files : List.Forall₂ (fun name t => host.readText name = .ok t)
      ["broken", "document", "blank"] [broken, document, "\n"] :=
    .cons found (.cons found' (.cons found'' .nil))
  refine ((readMessages_iff_loadable files).1 _).2 ⟨?_, ?_⟩
  · simp [stripped, stripped', stripped'', loadable, loadable', loadable'']
  · simp [stripped, stripped', stripped'', textMessages, malformed, array, empty, cut,
      none, ofDocument, lineMessage, oops, one, Message.ofJson,
      Json.integer, Json.string]

/-- A text of three lines, the second of which is given. -/
def threeLines (line : Text) : Text := "1\n" ++ line ++ "\n2"

section ThreeLines
variable {line : Text}

theorem filledLines_threeLines (full : line ≠ []) (whole : .char '\n' ∉ line)
    (stripped : line.strip = line) :
    filledLines (threeLines line).strip = (["1", line, "2"] : List Text) := by
  have ends : (threeLines line).strip = threeLines line := by
    apply Text.strip_of_ends
    · intro p hp
      cases hp
      rfl
    · intro p hp
      rw [threeLines, List.getLast?_append] at hp
      cases hp
      rfl
  have split : threeLines line =
      "1" ++ .char '\n' :: (line ++ .char '\n' :: Text.ofString "2") := by
    simp [threeLines, Text.ofString]
  rw [ends, split, filledLines_append_feed (by decide),
    filledLines_append_feed whole, stripped, if_neg full]
  rfl

/-- A line beyond what is read is not kept as text, although a value stands before it. -/
theorem messages_threeLines {e : Json.ReadError} (full : line ≠ []) (whole : .char '\n' ∉ line)
    (stripped : line.strip = line) (failed : Json.read line = .error e)
    (limit : e.isMalformed = false) : messages (threeLines line) = .error e := by
  have cut := filledLines_threeLines full whole stripped
  have one : Json.read "1" = .ok (.integer 1) := by cbv
  obtain ⟨place, malformed⟩ := read_of_cut cut one
  have first : ofLine "1" = .ok (.value (.integer 1)) := by
    rw [ofLine, one]
    rfl
  have second := ofLine_eq_error.2 ⟨failed, limit⟩
  rw [messages_eq, malformed]
  simp only [Json.ReadError.isMalformed, if_true, cut, List.mapM_cons, first, second]
  rfl

theorem readText_threeLines (plain : line.IsPlain) (h : .char '\r' ∉ line) (name : Text) :
    (Host.ofPlain fun _ => threeLines line).readText name = .ok (threeLines line) := by
  apply readText_ofPlain_of_not_mem
  · exact List.forall_mem_append.2 ⟨List.forall_mem_append.2 ⟨by decide, plain⟩, by decide⟩
  · simp [threeLines, Text.ofString, h]

/-- An integer of too many digits on a line of its own stops the loading of its file. -/
theorem readMessages_of_ones {n : Nat} (long : Json.digitLimit < n + 1) (name : Text) :
    let content := threeLines (List.replicate (n + 1) (.char '1'))
    let host := Host.ofPlain fun _ => content
    host.readText name = .ok content ∧
      host.readMessages [name] = .error (.text (.overlong (n + 1))) := by
  intro content host
  have plain : Text.IsPlain (List.replicate (n + 1) (.char '1')) :=
    List.forall_mem_replicate.2 (.inr (by decide))
  have stripped : Text.strip (List.replicate (n + 1) (.char '1')) = _ :=
    Text.strip_of_filled (List.forall_mem_replicate.2 (.inr rfl))
  have loaded : host.readText name = .ok content := by
    apply readText_threeLines plain
    simp
  have stopped : messages content = .error (.overlong (n + 1)) := by
    apply messages_threeLines _ _ stripped (Json.read_of_ones long) rfl
    all_goals simp
  refine ⟨loaded, ?_⟩
  rw [readMessages, loaded]
  simp only [bind, Except.bind, stopped]
  rfl

end ThreeLines

/-- One digit beyond the limit is enough. -/
theorem readMessages_stopped_by_long_integer :
    let content := threeLines (List.replicate 4301 (.char '1'))
    let host := Host.ofPlain fun _ => content
    host.readText "m.jsonl" = .ok content ∧
      host.readMessages ["m.jsonl"] = .error (.text (.overlong 4301)) :=
  readMessages_of_ones (Nat.lt_succ_self 4300) "m.jsonl"

end Host

end SchemaInference
