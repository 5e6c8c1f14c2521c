import Mathlib.Data.List.DropRight
import SchemaInference.MessageFile
import SchemaInference.Proofs.Separation

/-!
# Lines

A text is cut at its first line feed into a line and a text that is cut in turn.  A line
that starts with more than a blank is what is left of it without its blanks, and blanks.
In a text of several filled lines, the first filled line ends before a blank, and there is
more than blanks behind it.
-/

namespace SchemaInference

namespace Text

variable {t line rest : Text} {p : CodePoint}

/-- Whether a text is empty or starts with more than a blank. -/
def StartsFilled (t : Text) : Prop := ∀ p ∈ t.head?, isBlank p = false

theorem strip_eq_rdropWhile (t : Text) : t.strip = (t.dropWhile isBlank).rdropWhile isBlank := rfl

theorem startsFilled_dropWhile (t : Text) : Text.StartsFilled (t.dropWhile isBlank) := by
  intro p hp
  have first := List.head?_dropWhile_not isBlank t
  rw [Option.mem_def.1 hp] at first
  exact first

theorem StartsFilled.of_append (h : Text.StartsFilled (t ++ rest)) : t.StartsFilled := by
  intro p hp
  cases t with
  | nil => cases hp
  | cons q t => exact h p hp

theorem startsFilled_strip (t : Text) : t.strip.StartsFilled := by
  have start := startsFilled_dropWhile t
  obtain ⟨rest, whole⟩ := List.rdropWhile_prefix isBlank (t.dropWhile isBlank)
  rw [← whole] at start
  exact start.of_append

theorem dropWhile_of_startsFilled (h : t.StartsFilled) : t.dropWhile isBlank = t := by
  cases t with
  | nil => rfl
  | cons p t => rw [List.dropWhile_cons_of_neg (by rw [h p rfl]; simp)]

/-- A text that does not start with a blank is its stripped text with blanks behind it. -/
theorem exists_blanks_behind (h : t.StartsFilled) :
    ∃ blanks : Text, t.strip ++ blanks = t ∧ ∀ p ∈ blanks, isBlank p = true := by
  refine ⟨t.rtakeWhile isBlank, ?_, fun p => List.mem_rtakeWhile_imp⟩
  rw [strip_eq_rdropWhile, dropWhile_of_startsFilled h]
  exact List.rdropWhile_append_rtakeWhile

theorem strip_ne_nil (h : t.StartsFilled) (full : t ≠ []) : t.strip ≠ [] := by
  intro empty
  obtain ⟨blanks, ends, blank⟩ := exists_blanks_behind h
  rw [empty, List.nil_append] at ends
  subst ends
  obtain ⟨p, rest, rfl⟩ := List.exists_cons_of_ne_nil full
  have filled := h p rfl
  rw [blank p List.mem_cons_self] at filled
  cases filled

theorem startsBlank_append {blanks gap : Text} (h : ∀ p ∈ blanks, isBlank p = true)
    (after : gap.StartsBlank) : Text.StartsBlank (blanks ++ gap) := by
  cases blanks with
  | nil => exact after
  | cons q blanks =>
    intro p hp
    cases hp
    exact h q List.mem_cons_self

theorem mem_of_mem_strip (h : p ∈ t.strip) : p ∈ t := by
  rw [strip_eq_rdropWhile] at h
  exact (List.dropWhile_sublist isBlank).subset ((List.rdropWhile_prefix isBlank _).subset h)

theorem strip_of_ends (h : t.StartsFilled) (last : ∀ p ∈ t.getLast?, isBlank p = false) :
    t.strip = t := by
  rw [strip_eq_rdropWhile, dropWhile_of_startsFilled h, List.rdropWhile_eq_self_iff]
  intro full
  rw [last _ (List.getLast?_eq_some_getLast full)]
  simp

theorem strip_of_filled (h : ∀ p ∈ t, isBlank p = false) : t.strip = t :=
  strip_of_ends (fun p hp => h p (List.mem_of_mem_head? hp))
    fun p hp => h p (List.mem_of_mem_getLast? hp)

theorem lines_of_not_mem (h : .char '\n' ∉ t) : t.lines = [t] := by
  induction t with
  | nil => rfl
  | cons p t ih =>
    rw [List.mem_cons, not_or] at h
    rw [lines, if_neg (Ne.symm h.1), ih h.2]

theorem lines_append_feed (h : .char '\n' ∉ line) :
    lines (line ++ .char '\n' :: rest) = line :: rest.lines := by
  induction line with
  | nil => rw [List.nil_append, lines, if_pos rfl]
  | cons p line ih =>
    rw [List.mem_cons, not_or] at h
    rw [List.cons_append, lines, if_neg (Ne.symm h.1), ih h.2]

theorem joinWith_cons {separator first : Text} {others : List Text} (h : others ≠ []) :
    joinWith separator (first :: others) = first ++ separator ++ joinWith separator others := by
  obtain ⟨second, rest, rfl⟩ := List.exists_cons_of_ne_nil h
  simp [joinWith, List.intersperse]

/-- The lines of a text are the texts without a line feed that make it up with one between. -/
theorem lines_eq_iff {ls : List Text} : t.lines = ls ↔
    ls ≠ [] ∧ (∀ l ∈ ls, .char '\n' ∉ l) ∧ joinWith [.char '\n'] ls = t := by
  constructor
  · rintro rfl
    refine ⟨lines_ne_nil t, ?_⟩
    induction t with
    | nil => simp [lines, joinWith]
    | cons p t ih =>
      obtain ⟨whole, joined⟩ := ih
      rw [lines]
      split
      · next feed =>
        refine ⟨List.forall_mem_cons.2 ⟨by simp, whole⟩, ?_⟩
        rw [joinWith_cons (lines_ne_nil t), joined, feed]
        rfl
      · next other =>
        obtain ⟨first, rest, cut⟩ := List.exists_cons_of_ne_nil (lines_ne_nil t)
        rw [cut] at whole joined ⊢
        rw [List.forall_mem_cons] at whole
        refine ⟨List.forall_mem_cons.2 ⟨?_, whole.2⟩, ?_⟩
        · rw [List.mem_cons, not_or]
          exact ⟨Ne.symm other, whole.1⟩
        · rw [← joined]
          cases rest <;> simp [joinWith, List.intersperse]
  · rintro ⟨full, whole, rfl⟩
    induction ls with
    | nil => exact absurd rfl full
    | cons first rest ih =>
      obtain ⟨here, there⟩ := List.forall_mem_cons.1 whole
      cases rest with
      | nil => simpa [joinWith] using lines_of_not_mem here
      | cons second rest =>
        rw [joinWith_cons (by simp), List.append_assoc, List.singleton_append,
          lines_append_feed here, ih (by simp) there]

theorem mem_of_mem_lines (h : line ∈ t.lines) (hp : p ∈ line) : p ∈ t := by
  induction t generalizing line with
  | nil =>
    rw [lines, List.mem_singleton] at h
    rwa [h] at hp
  | cons q t ih =>
    rw [lines] at h
    split at h
    · rcases List.mem_cons.1 h with rfl | h
      · cases hp
      · exact List.mem_cons_of_mem q (ih h hp)
    · obtain ⟨first, others, cut⟩ := List.exists_cons_of_ne_nil (lines_ne_nil t)
      rw [cut] at h ih
      rcases List.mem_cons.1 h with rfl | h
      · rcases List.mem_cons.1 hp with rfl | hp
        · exact List.mem_cons_self
        · exact List.mem_cons_of_mem q (ih List.mem_cons_self hp)
      · exact List.mem_cons_of_mem q (ih (List.mem_cons_of_mem first h) hp)

end Text

namespace MessageFile

variable {t line rest content first second : Text} {others : List Text}

theorem mem_filledLines : line ∈ filledLines t ↔ line ≠ [] ∧ ∃ l ∈ t.lines, l.strip = line := by
  simp [filledLines, and_comm]

theorem filledLines_append_feed (h : .char '\n' ∉ line) :
    filledLines (line ++ .char '\n' :: rest) =
      (if line.strip = [] then [] else [line.strip]) ++ filledLines rest := by
  unfold filledLines
  rw [Text.lines_append_feed h, List.map_cons, List.filter_cons]
  cases line.strip <;> rfl

theorem length_filledLines_of_not_mem (h : .char '\n' ∉ t) : (filledLines t).length ≤ 1 := by
  unfold filledLines
  rw [Text.lines_of_not_mem h]
  exact List.length_filter_le _ _

theorem exists_filled_of_mem (h : line ∈ filledLines t) : ∃ p ∈ t, Text.isBlank p = false := by
  obtain ⟨full, l, hl, rfl⟩ := mem_filledLines.1 h
  obtain ⟨p, tail, cut⟩ := List.exists_cons_of_ne_nil full
  have start := Text.startsFilled_strip l
  rw [cut] at start
  have mem : p ∈ l.strip := by simp [cut]
  exact ⟨p, Text.mem_of_mem_lines hl (Text.mem_of_mem_strip mem), start p rfl⟩

/-- The first filled line of several ends before a blank, with more than blanks behind it. -/
theorem exists_behind_first (start : content.StartsFilled)
    (several : filledLines content = first :: second :: others) :
    ∃ gap : Text, first ++ gap = content ∧ gap.StartsBlank ∧
      ∃ p ∈ gap, Text.isBlank p = false := by
  by_cases feed : .char '\n' ∈ content
  · obtain ⟨line, rest, rfl, whole⟩ : ∃ line rest : Text,
        content = line ++ .char '\n' :: rest ∧ .char '\n' ∉ line := List.eq_append_cons_of_mem feed
    have full : line ≠ [] := by
      rintro rfl
      cases start (.char '\n') rfl
    have own := start.of_append
    rw [filledLines_append_feed whole, if_neg (Text.strip_ne_nil own full)] at several
    obtain ⟨rfl, behind⟩ := List.cons.inj several
    obtain ⟨blanks, ends, blank⟩ := Text.exists_blanks_behind own
    refine ⟨blanks ++ .char '\n' :: rest, by rw [← List.append_assoc, ends], ?_, ?_⟩
    · exact Text.startsBlank_append blank fun p hp => by cases hp; rfl
    · obtain ⟨p, hp, filled⟩ := exists_filled_of_mem (behind ▸ List.mem_cons_self)
      exact ⟨p, by simp [hp], filled⟩
  · have bound := length_filledLines_of_not_mem feed
    rw [several] at bound
    simp at bound

end MessageFile

end SchemaInference
