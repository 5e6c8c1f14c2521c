import SchemaInference.Json.Reader
import SchemaInference.Proofs.Separation

/-!
# Documents with more behind them

A reading takes the tokens of a document as it would alone, and then takes no other token.
A text that holds a document up to a blank, and more than blanks from there on, is therefore
malformed, whatever stands behind the document.
-/

namespace SchemaInference.Json

namespace Reading

variable {r next last : Reading} {token : Token} {ts : List Token}

theorem isComplete_of_step (taken : r.step token = .ok next) : token.IsComplete := by
  obtain ⟨frames, stage⟩ := r
  by_contra cut
  -- no stage takes a token that was not read to its end
  cases token with
  | stray | broken =>
    cases stage with
    | complete v => rcases frames with _ | ⟨_ | _, _⟩ <;> cases taken
    | _ => cases taken
  | _ => exact cut trivial

theorem run_cons_eq_ok : r.run (token :: ts) = .ok last ↔
    ∃ next, r.step token = .ok next ∧ next.run ts = .ok last := by
  rw [run]
  cases r.step token <;> simp

theorem isComplete_of_run (taken : r.run ts = .ok last) : ∀ token ∈ ts, token.IsComplete := by
  induction ts generalizing r with
  | nil => simp
  | cons token rest ih =>
    obtain ⟨next, first, others⟩ := run_cons_eq_ok.1 taken
    exact List.forall_mem_cons.2 ⟨isComplete_of_step first, ih others⟩

theorem run_append (us : List Token) (taken : r.run ts = .ok last) :
    r.run (ts ++ us) = last.run us := by
  induction ts generalizing r with
  | nil =>
    cases taken
    rfl
  | cons token rest ih =>
    obtain ⟨next, first, others⟩ := run_cons_eq_ok.1 taken
    rw [List.cons_append, run, first]
    exact ih others

theorem eq_of_finish {v : Json} (h : r.finish = .ok v) : r = ⟨[], .complete v⟩ := by
  obtain ⟨frames, stage⟩ := r
  cases stage with
  | complete w =>
    cases frames with
    | nil =>
      cases h
      rfl
    | cons frame frames => cases h
  | _ => cases h

end Reading

variable {ts : List Token} {v : Json} {t gap : Text} {p : CodePoint}

theorem parse_eq_ok : parse ts = .ok v ↔ Reading.start.run ts = .ok ⟨[], .complete v⟩ := by
  unfold parse
  constructor
  · intro h
    split at h
    · cases h
    · next r taken =>
      split at h
      · next w finished =>
        cases h
        rw [taken, Reading.eq_of_finish finished]
      · cases h
  · intro taken
    rw [taken]
    rfl

theorem parse_append (token : Token) (us : List Token) (document : parse ts = .ok v) :
    ∃ unread, parse (ts ++ token :: us) = .error ⟨.complaint .extraData 0, unread⟩ := by
  have taken := Reading.run_append (token :: us) (parse_eq_ok.1 document)
  refine ⟨us.length + 1, ?_⟩
  rw [parse, taken]
  rfl

theorem readDecoded_eq_ok : readDecoded t = .ok v ↔ parse (tokens t) = .ok v := by
  rw [readDecoded, tokens]
  split <;> simp_all

theorem readDecoded_of_read (document : read t = .ok v) : readDecoded t = .ok v := by
  unfold read at document
  split at document
  · cases document
  · exact document

/-- A document that ends before a blank is not the whole of a text that goes on behind it. -/
theorem read_append (document : read t = .ok v) (h : gap.StartsBlank) (hp : p ∈ gap)
    (filled : Text.isBlank p = false) :
    ∃ place, read (t ++ gap) = .error (.malformed .extraData place) := by
  have parsed := readDecoded_eq_ok.1 (readDecoded_of_read document)
  have complete := Reading.isComplete_of_run (parse_eq_ok.1 parsed)
  obtain ⟨token, others, more⟩ := List.exists_cons_of_ne_nil (tokens_ne_nil hp filled)
  obtain ⟨unread, fault⟩ := parse_append token others parsed
  rw [← more, ← tokens_append h complete, tokens] at fault
  unfold read
  split
  · next rest whole =>
    cases t with
    | nil =>
      rw [tokens_nil] at parsed
      cases parsed
    | cons q t =>
      cases (List.cons.inj whole).1
      cases document
  · rw [readDecoded]
    simp only [fault]
    exact ⟨_, rfl⟩

end SchemaInference.Json
