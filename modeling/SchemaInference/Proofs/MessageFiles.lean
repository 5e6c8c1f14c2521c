import Mathlib.Data.List.Permutation
import SchemaInference.Proofs.ExtraData
import SchemaInference.Proofs.Folds
import SchemaInference.Proofs.Lines
import SchemaInference.Proofs.PlainFiles

/-!
# Loading messages

What is kept of a file is told by its text alone: the document it holds, or a message for
each filled line.  Loading gives exactly that, unless a text that is tried on the way is
JSON beyond what is read.  A text of several filled lines that starts with a document is
never a document as a whole, so that it is always taken line by line.
-/

namespace SchemaInference

namespace MessageFile

variable {t content line : Text} {ls : List Text} {m : Message} {ms : List Message}
  {e : Json.ReadError}

/-- Whether a text is read or is no JSON at all, rather than JSON beyond what is read. -/
def Settled (t : Text) : Prop := ∀ e, Json.read t = .error e → e.isMalformed = true

/-- What is kept of a line: its value, or the line itself. -/
def lineMessage (line : Text) : Message :=
  match Json.read line with
  | .ok v => .ofJson v
  | .error _ => .text line

/-- What is kept of a text: the document it is, or its lines. -/
def textMessages (content : Text) : List Message :=
  match Json.read content with
  | .ok v => ofDocument v
  | .error _ => (filledLines content).map lineMessage

/-- Whether every text that is tried for messages is settled: the whole, and then the lines. -/
structure Loadable (content : Text) : Prop where
  whole : Settled content
  lines : (∀ v, Json.read content ≠ .ok v) → ∀ line ∈ filledLines content, Settled line

/-- Whether a text has several filled lines, all of them settled and the first one a document. -/
structure IsLines (content : Text) : Prop where
  several : 2 ≤ (filledLines content).length
  first : ∀ line ∈ (filledLines content).head?, ∃ v, Json.read line = .ok v
  settled : ∀ line ∈ filledLines content, Settled line

theorem settled_of_read {v : Json} (h : Json.read t = .ok v) : Settled t := by
  intro e he
  rw [h] at he
  cases he

theorem settled_of_malformed {complaint : Json.Complaint} {place : Json.Place}
    (h : Json.read t = .error (.malformed complaint place)) : Settled t := by
  intro e he
  rw [h] at he
  cases he
  rfl

theorem ofLine_eq_ok : ofLine line = .ok m ↔ Settled line ∧ lineMessage line = m := by
  unfold ofLine lineMessage Settled
  cases Json.read line with
  | ok v => simp
  | error e => cases he : e.isMalformed <;> simp [he]

theorem ofLine_eq_error :
    ofLine line = .error e ↔ Json.read line = .error e ∧ e.isMalformed = false := by
  unfold ofLine
  constructor
  · intro h
    split at h
    · cases h
    · next fault failed =>
      split at h
      · cases h
      · next limit =>
        cases h
        exact ⟨failed, Bool.eq_false_iff.2 limit⟩
  · rintro ⟨failed, limit⟩
    simp [failed, limit]

theorem mapM_ofLine_eq_ok :
    ls.mapM ofLine = .ok ms ↔ (∀ line ∈ ls, Settled line) ∧ ls.map lineMessage = ms := by
  have mapped := @List.forall₂_map_left_iff _ _ _ Eq lineMessage ls ms
  rw [List.forall₂_eq_eq_eq] at mapped
  rw [mapM_eq_ok, mapped, ← List.forall₂_and_left]
  simp only [ofLine_eq_ok]

/-- An empty text needs no case of its own: it is no JSON, and has no filled line. -/
theorem messages_eq (t : Text) : messages t =
    match Json.read t.strip with
    | .ok v => .ok (ofDocument v)
    | .error e => if e.isMalformed then (filledLines t.strip).mapM ofLine else .error e := by
  unfold messages
  cases t.strip with
  | cons p rest => rfl
  | nil => cbv

/-- Loading succeeds where everything that is tried is settled, and keeps what the text holds. -/
theorem messages_eq_ok :
    messages t = .ok ms ↔ Loadable t.strip ∧ textMessages t.strip = ms := by
  rw [messages_eq, textMessages]
  cases document : Json.read t.strip with
  | ok v =>
    have loadable : Loadable t.strip :=
      ⟨settled_of_read document, fun none => absurd document (none v)⟩
    simp [loadable]
  | error e =>
    have loadable : Loadable t.strip ↔ e.isMalformed = true ∧
        ∀ line ∈ filledLines t.strip, Settled line := by
      refine ⟨fun h => ⟨h.whole e document, h.lines ?_⟩, fun h => ⟨?_, fun _ => h.2⟩⟩
      · simp [document]
      · simp [Settled, document, h.1]
    rw [loadable, and_assoc, ← mapM_ofLine_eq_ok]
    cases he : e.isMalformed <;> simp [he]

/-- Loading is stopped only by a text that is tried and is JSON beyond what is read. -/
theorem exists_tried_of_messages (h : messages t = .error e) :
    ∃ tried ∈ t.strip :: filledLines t.strip,
      Json.read tried = .error e ∧ e.isMalformed = false := by
  rw [messages_eq] at h
  split at h
  · cases h
  · next fault failed =>
    split at h
    · obtain ⟨line, hline, stopped⟩ := exists_error_of_mapM h
      exact ⟨line, List.mem_cons_of_mem _ hline, ofLine_eq_error.1 stopped⟩
    · next limit =>
      cases h
      exact ⟨t.strip, List.mem_cons_self, failed, Bool.eq_false_iff.2 limit⟩

/-- A text of several lines is no document if its first line already is one. -/
theorem read_of_cut {first second : Text} {others : List Text} {v : Json}
    (cut : filledLines t.strip = first :: second :: others) (document : Json.read first = .ok v) :
    ∃ place, Json.read t.strip = .error (.malformed .extraData place) := by
  obtain ⟨gap, whole, blank, p, hp, filled⟩ := exists_behind_first (Text.startsFilled_strip t) cut
  rw [← whole]
  exact Json.read_append document blank hp filled

namespace IsLines

theorem of_cut {first second : Text} {others : List Text} {v : Json}
    (cut : filledLines content = first :: second :: others) (document : Json.read first = .ok v)
    (settled : ∀ line ∈ second :: others, Settled line) : IsLines content where
  several := by simp [cut]
  first line hline := by
    simp only [cut, List.head?_cons, Option.mem_def, Option.some.injEq] at hline
    exact ⟨v, hline ▸ document⟩
  settled := by
    rw [cut]
    exact List.forall_mem_cons.2 ⟨settled_of_read document, settled⟩

theorem read_eq (h : IsLines t.strip) :
    ∃ place, Json.read t.strip = .error (.malformed .extraData place) := by
  obtain ⟨several, first, -⟩ := h
  rcases cut : filledLines t.strip with _ | ⟨line, _ | ⟨second, others⟩⟩
  · simp [cut] at several
  · simp [cut] at several
  · obtain ⟨v, document⟩ := first line (by simp [cut])
    exact read_of_cut cut document

theorem loadable (h : IsLines t.strip) : Loadable t.strip := by
  obtain ⟨place, malformed⟩ := h.read_eq
  exact ⟨settled_of_malformed malformed, fun _ => h.settled⟩

theorem textMessages_eq (h : IsLines t.strip) :
    textMessages t.strip = (filledLines t.strip).map lineMessage := by
  obtain ⟨place, malformed⟩ := h.read_eq
  rw [textMessages, malformed]

end IsLines

end MessageFile

namespace Host

open MessageFile

variable {host : Host} {names texts : List Text} {ms : List Message}

theorem readMessages_cons_eq_ok {name : Text} :
    host.readMessages (name :: names) = .ok ms ↔
      ∃ t, host.readText name = .ok t ∧ ∃ first, messages t = .ok first ∧
        ∃ others, host.readMessages names = .ok others ∧ first ++ others = ms := by
  simp only [readMessages, bind_eq_ok, mapError_eq_ok, pure, Except.pure, Except.ok.injEq]

theorem readMessages_eq_ok
    (files : List.Forall₂ (fun name t => host.readText name = .ok t) names texts) :
    host.readMessages names = .ok ms ↔ (∀ t ∈ texts, Loadable t.strip) ∧
      texts.flatMap (fun t => textMessages t.strip) = ms := by
  induction files generalizing ms with
  | nil => simp [readMessages]
  | @cons name t names texts found rest ih =>
    rw [readMessages_cons_eq_ok, List.forall_mem_cons, List.flatMap_cons]
    simp only [found, ih, messages_eq_ok]
    constructor
    · rintro ⟨_, ⟨⟩, _, ⟨here, rfl⟩, _, ⟨there, rfl⟩, whole⟩
      exact ⟨⟨here, there⟩, whole⟩
    · rintro ⟨⟨here, there⟩, whole⟩
      exact ⟨t, rfl, _, ⟨here, rfl⟩, _, ⟨there, rfl⟩, whole⟩

theorem exists_tried_of_readMessages {e : JobError}
    (files : List.Forall₂ (fun name t => host.readText name = .ok t) names texts)
    (h : host.readMessages names = .error e) :
    ∃ t ∈ texts, ∃ tried ∈ t.strip :: filledLines t.strip, ∃ fault,
      Json.read tried = .error fault ∧ fault.isMalformed = false ∧ e = .text fault := by
  induction files with
  | nil => cases h
  | @cons name t names texts found rest ih =>
    rw [readMessages, found] at h
    rcases bind_eq_error.1 h with ⟨⟨⟩⟩ | ⟨_, ⟨⟩, loading⟩
    rcases bind_eq_error.1 loading with stopped | ⟨first, -, loading⟩
    · obtain ⟨fault, failed, rfl⟩ := mapError_eq_error.1 stopped
      obtain ⟨tried, ht, limit⟩ := exists_tried_of_messages failed
      exact ⟨t, List.mem_cons_self, tried, ht, fault, limit.1, limit.2, rfl⟩
    · rcases bind_eq_error.1 loading with later | ⟨others, -, done⟩
      · obtain ⟨t', ht', stopped⟩ := ih later
        exact ⟨t', List.mem_cons_of_mem t ht', stopped⟩
      · cases done

/--
Files of lines give one message for every filled line, in the order of the files and of their
lines: the value of the line if it is JSON, which is not taken apart, or else the line itself.
-/
theorem readMessages_of_lines
    (files : List.Forall₂ (fun name t => host.readText name = .ok t) names texts)
    (lines : ∀ t ∈ texts, IsLines t.strip) :
    host.readMessages names = .ok (texts.flatMap fun t =>
      (filledLines t.strip).map lineMessage) := by
  refine (readMessages_eq_ok files).2 ⟨fun t ht => (lines t ht).loadable, ?_⟩
  rw [List.flatMap_def, List.flatMap_def]
  exact congrArg List.flatten (List.map_congr_left fun t ht => (lines t ht).textMessages_eq)

/-- Lines that end in several ways, blank lines, an array, a broken line, a string and a null. -/
theorem readMessages_of_lines_of_two_files :
    let first : Text := " \x1c1 \n\n[2, 3]\r\n\x0b[\n"
    let second : Text := "\"[4]\"\rnull"
    let host := Host.ofPlain fun name => if name = "first" then first else second
    host.readMessages ["first", "second"] = .ok [.value (.integer 1),
      .value (.array [.integer 2, .integer 3]), .text "[", .text "[4]", .value (.scalar .null)] := by
  intro first second host
  have loaded : host.readText "first" = .ok first.normalizeLineEnds := readText_ofPlain (by decide)
  have loaded' : host.readText "second" = .ok second.normalizeLineEnds :=
    readText_ofPlain (by decide)
  have cut : filledLines first.normalizeLineEnds.strip =
      (["1", "[2, 3]", "["] : List Text) := by decide
  have cut' : filledLines second.normalizeLineEnds.strip =
      (["\"[4]\"", "null"] : List Text) := by decide
  have one : Json.read "1" = .ok (.integer 1) := by cbv
  have array : Json.read "[2, 3]" = .ok (.array [.integer 2, .integer 3]) := by cbv
  have broken : Json.read "[" = .error (.malformed .missingValue ⟨1, 1, 2⟩) := by cbv
  have string : Json.read "\"[4]\"" = .ok (.string "[4]") := by cbv
  have null : Json.read "null" = .ok (.scalar .null) := by cbv
  have lines : IsLines first.normalizeLineEnds.strip := by
    refine .of_cut cut one ?_
    simp [settled_of_read array, settled_of_malformed broken]
  have lines' : IsLines second.normalizeLineEnds.strip := by
    refine .of_cut cut' string ?_
    simp [settled_of_read null]
  rw [readMessages_of_lines (.cons loaded (.cons loaded' .nil)) (by simp [lines, lines'])]
  simp [cut, cut', lineMessage, one, array, broken, string, null, Message.ofJson,
    Json.string, Json.integer]

end Host

end SchemaInference
