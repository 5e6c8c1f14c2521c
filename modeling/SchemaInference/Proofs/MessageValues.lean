import SchemaInference.Proofs.MessageFiles

/-!
# Values in message files

Values are put into a file as one array or with one value to a line.  Either way each value
becomes a message, and the schema of the message is that of the value unless the value is a
string: a string is handed on as text, and is read once more before its schema is inferred.
-/

namespace SchemaInference

variable {settings : Settings} {name : Text} {index : Int} {v : Json}

namespace MessageFile

variable {t content : Text} {vs : List Json}

/-- Whether a text holds values, as the elements of one array or with one value to a line. -/
inductive Holds (content : Text) (vs : List Json) : Prop where
  | array (document : Json.read content = .ok (.array vs))
  | lines (several : 2 ≤ vs.length)
      (each : List.Forall₂ (fun line v => Json.read line = .ok v) (filledLines content) vs)

section Lines
variable {ls : List Text}

theorem exists_of_each (each : List.Forall₂ (fun line v => Json.read line = .ok v) ls vs) :
    ∀ line ∈ ls, ∃ v, Json.read line = .ok v := by
  induction each with
  | nil => simp
  | cons here _ ih => exact List.forall_mem_cons.2 ⟨⟨_, here⟩, ih⟩

theorem map_lineMessage_of_each
    (each : List.Forall₂ (fun line v => Json.read line = .ok v) ls vs) :
    ls.map lineMessage = vs.map Message.ofJson := by
  induction each with
  | nil => rfl
  | cons here _ ih => rw [List.map_cons, List.map_cons, ih, lineMessage, here]

end Lines

theorem isLines_of_each (several : 2 ≤ vs.length)
    (each : List.Forall₂ (fun line v => Json.read line = .ok v) (filledLines content) vs) :
    IsLines content where
  several := each.length_eq ▸ several
  first line hline := exists_of_each each line (List.mem_of_mem_head? hline)
  settled line hline := by
    obtain ⟨v, document⟩ := exists_of_each each line hline
    exact settled_of_read document

theorem messages_of_holds (h : Holds t.strip vs) : messages t = .ok (vs.map Message.ofJson) := by
  cases h with
  | array document =>
    refine messages_eq_ok.2 ⟨⟨settled_of_read document, fun none => absurd document (none _)⟩, ?_⟩
    rw [textMessages, document]
    rfl
  | lines several each =>
    have lines := isLines_of_each several each
    refine messages_eq_ok.2 ⟨lines.loadable, ?_⟩
    rw [lines.textMessages_eq, map_lineMessage_of_each each]

end MessageFile

theorem ofJson_of_ne_string (h : ∀ s, v ≠ .string s) : Message.ofJson v = .value v := by
  unfold Message.ofJson
  split
  · exact absurd rfl (h _)
  · rfl

theorem outcome_inferMessage_value :
    (inferMessage settings name index (.value v)).outcome = inferDocument settings name v := rfl

theorem outcome_inferMessage_text {s : Text} :
    (inferMessage settings name index (.text s)).outcome =
      match Json.read s with
      | .ok w => inferDocument settings name w
      | .error e => .error ⟨.ofReadError index e, none⟩ := by
  simp only [inferMessage, Message.read]
  cases Json.read s <;> rfl

/--
Values in a file are messages in their order.  A value that is no string gets the schema that
is inferred for it, or fails as its inference does; what a string gets is inferred for the value
that the string can be read as.
-/
theorem outcome_of_file_values {host : Host} {t : Text} {vs : List Json}
    (found : host.readText name = .ok t) (values : MessageFile.Holds t.strip vs)
    (settings : Settings) :
    ∃ ms, host.readMessages [name] = .ok ms ∧ ms.length = vs.length ∧
      ∀ (i : Nat) m v, ms[i]? = some m → vs[i]? = some v →
        ((∀ s, v ≠ .string s) → (inferMessage settings messageName i m).outcome =
          inferDocument settings messageName v) ∧
        ∀ s, v = .string s → (inferMessage settings messageName i m).outcome =
          match Json.read s with
          | .ok w => inferDocument settings messageName w
          | .error e => .error ⟨.ofReadError i e, none⟩ := by
  refine ⟨vs.map Message.ofJson, ?_, List.length_map _, fun i m v hm hv => ?_⟩
  · rw [Host.readMessages_cons_eq_ok]
    exact ⟨t, found, _, MessageFile.messages_of_holds values, [], rfl, List.append_nil _⟩
  · rw [List.getElem?_map, hv] at hm
    cases hm
    refine ⟨fun other => ?_, ?_⟩
    · rw [ofJson_of_ne_string other, outcome_inferMessage_value]
    · rintro s rfl
      exact outcome_inferMessage_text

/-- An object, an array and a string on lines of their own. -/
theorem outcome_of_file_values_on_three_lines :
    let content : Text := "\x7b\"a\": 1\x7d\n\n [2.5]\n\"3\"\n"
    ∃ x y z, (Host.ofPlain fun _ => content).readMessages ["m.jsonl"] = .ok [x, y, z] ∧
      (inferMessage {} messageName 0 x).outcome = .ok (.record "Record" [("a", .primitive .int)]) ∧
      (inferMessage {} messageName 1 y).outcome = .ok (.array none (.primitive .double)) ∧
      (inferMessage {} messageName 2 z).outcome = .ok (.primitive .int) := by
  intro content
  have found : (Host.ofPlain fun _ => content).readText "m.jsonl" = .ok content :=
    readText_ofPlain_of_not_mem (by decide) (by decide)
  have cut : MessageFile.filledLines content.strip =
      (["\x7b\"a\": 1\x7d", "[2.5]", "\"3\""] : List Text) := by decide
  have object : Json.read "\x7b\"a\": 1\x7d" = .ok (.object [("a", .integer 1)]) := by cbv
  have array : Json.read "[2.5]" = .ok (.array [.scalar (.real "2.5")]) := by cbv
  have string : Json.read "\"3\"" = .ok (.string "3") := by cbv
  have three : Json.read "3" = .ok (.integer 3) := by cbv
  have values : MessageFile.Holds content.strip
      [.object [("a", .integer 1)], .array [.scalar (.real "2.5")], .string "3"] := by
    refine .lines (by decide) ?_
    rw [cut]
    exact .cons object (.cons array (.cons string .nil))
  obtain ⟨ms, loaded, length, outcome⟩ := outcome_of_file_values found values {}
  obtain ⟨x, y, z, rfl⟩ := List.length_eq_three.1 length
  refine ⟨x, y, z, loaded, ?_, ?_, ?_⟩
  · refine ((outcome 0 x _ rfl rfl).1 (by simp [Json.string])).trans ?_
    cbv
  · refine ((outcome 1 y _ rfl rfl).1 (by simp [Json.string])).trans ?_
    cbv
  · refine ((outcome 2 z _ rfl rfl).2 _ rfl).trans ?_
    rw [three]
    cbv

/-- A string in an array of messages is read as text, which it is not, in place of its schema. -/
theorem string_message_read_again :
    let content : Text := "[\"abc\",1]"
    let host := Host.ofPlain fun _ => content
    host.readText "m.json" = .ok content ∧
      Json.read content.strip = .ok (.array [.string "abc", .integer 1]) ∧
      ∃ m rest, host.readMessages ["m.json"] = .ok (m :: rest) ∧
        ∀ mode, inferDocument { mode } messageName (.string "abc") = .ok (.primitive .string) ∧
          (inferMessage { mode } messageName 0 m).outcome =
            .error ⟨.unreadable (.text (.malformed .missingValue ⟨0, 1, 1⟩)), none⟩ := by
  intro content host
  have found : host.readText "m.json" = .ok content :=
    readText_ofPlain_of_not_mem (by decide) (by decide)
  have stripped : content.strip = "[\"abc\",1]" := by decide
  have document : Json.read content.strip = .ok (.array [.string "abc", .integer 1]) := by
    rw [stripped]
    cbv
  have abc : Json.read "abc" = .error (.malformed .missingValue ⟨0, 1, 1⟩) := by cbv
  have loaded := MessageFile.messages_of_holds (.array document)
  refine ⟨found, document, .text "abc", [.value (.integer 1)], ?_, fun mode => ⟨?_, ?_⟩⟩
  · rw [Host.readMessages_cons_eq_ok]
    exact ⟨content, found, _, loaded, [], rfl, rfl⟩
  · cbv
  · rw [outcome_inferMessage_text, abc]
    rfl

end SchemaInference
