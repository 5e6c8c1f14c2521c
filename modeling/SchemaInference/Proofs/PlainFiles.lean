import SchemaInference.Job

/-!
# Plain files

A file of the octets below `0x80` is read as the text of the same numbers, so that every
plain text without a carriage return is the text of some file.
-/

namespace SchemaInference

variable {t : Text}

/-- Whether a text has characters of the ASCII range only. -/
def Text.IsPlain (t : Text) : Prop := ∀ p ∈ t, p.number < 0x80

instance : DecidablePred Text.IsPlain := fun t =>
  inferInstanceAs (Decidable (∀ p ∈ t, p.number < 0x80))

/-- The octets of a plain text. -/
def Text.octets (t : Text) : List UInt8 := t.map fun p => .ofNat p.number

theorem utf8From_octets (h : t.IsPlain) (lenient : Bool) (position : Nat) :
    Encoding.utf8From lenient position none t.octets = .ok t := by
  induction t generalizing position with
  | nil => rfl
  | cons p t ih =>
    obtain ⟨first, others⟩ := List.forall_mem_cons.1 h
    have number : (UInt8.ofNat p.number).toNat = p.number :=
      UInt8.toNat_ofNat_of_lt' (Nat.lt_trans first (by decide))
    have octets : Text.octets (p :: t) = .ofNat p.number :: Text.octets t := rfl
    rw [octets, Encoding.utf8From]
    simp only [number, if_pos first, ih others, Except.map, CodePoint.ofNumber_number]

theorem normalizeLineEnds_of_not_mem (h : .char '\r' ∉ t) : t.normalizeLineEnds = t := by
  induction t with
  | nil => rfl
  | cons p t ih =>
    rw [List.mem_cons, not_or] at h
    rw [Text.normalizeLineEnds, ih h.2]
    · rintro rest rfl
      exact absurd rfl h.1
    · rintro rfl
      exact absurd rfl h.1

/-- The system whose files hold the octets of plain texts. -/
def Host.ofPlain (file : Text → Text) : Host where
  read name := .ok (file name).octets
  writeError _ := none

theorem readText_ofPlain {file : Text → Text} {name : Text} (plain : (file name).IsPlain) :
    (Host.ofPlain file).readText name = .ok (file name).normalizeLineEnds := by
  have decoded : Encoding.decodeFile (file name).octets = .ok (file name) :=
    utf8From_octets plain false 0
  have found : (Host.ofPlain file).read name = .ok (file name).octets := rfl
  rw [Host.readText, found]
  change (do
    let t ← (Encoding.decodeFile (file name).octets).mapError JobError.octets
    return t.normalizeLineEnds) = _
  rw [decoded]
  rfl

theorem readText_ofPlain_of_not_mem {file : Text → Text} {name : Text}
    (plain : (file name).IsPlain) (h : .char '\r' ∉ file name) :
    (Host.ofPlain file).readText name = .ok (file name) := by
  rw [readText_ofPlain plain, normalizeLineEnds_of_not_mem h]

end SchemaInference
