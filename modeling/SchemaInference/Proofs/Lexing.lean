import SchemaInference.Proofs.Rendering

/-!
# The tokens of a printed text

Whatever its style, a printed value is cut into the brackets, separators and strings it
consists of: spacing is dropped, a string ends at its own closing quote, and its escapes
are joined to the code points that were spelled.
-/

namespace SchemaInference

namespace CodeUnit

variable {p : CodePoint}

theorem number_char (c : Char) : (CodePoint.char c).number < 0xD800 ∨
    0xE000 ≤ (CodePoint.char c).number ∧ (CodePoint.char c).number < 0x110000 := by
  have valid := c.valid
  simp only [UInt32.isValidChar, Nat.isValidChar] at valid
  simp only [CodePoint.number, Char.toNat]
  omega

theorem number_lt (p : CodePoint) : p.number < 0x110000 := by
  cases p with
  | char c =>
    have := number_char c
    omega
  | surrogate index =>
    simp only [CodePoint.number]
    omega

theorem unit_lt {u : Nat} (h : u ∈ ofCodePoint p) : u < 0x10000 := by
  have bound := number_lt p
  unfold ofCodePoint at h
  split at h
  · rw [List.mem_singleton.1 h]
    assumption
  · simp only [List.mem_cons, List.not_mem_nil, or_false] at h
    omega

theorem single_number (p : CodePoint) : single p.number = p := CodePoint.ofNumber_number p

theorem isLeading_number (c : Char) : isLeading (CodePoint.char c).number = false := by
  have outside := number_char c
  simp only [isLeading, Bool.and_eq_false_iff, decide_eq_false_iff_not]
  omega

/-- The two units of a code point are a pair that stands for it. -/
theorem pair_ofCodePoint {u v : Nat} (h : ofCodePoint p = [u, v]) :
    isLeading u = true ∧ isTrailing v = true ∧ pair u v = p := by
  have bound := number_lt p
  unfold ofCodePoint at h
  split at h
  · cases h
  · obtain ⟨rfl, rest⟩ := List.cons.inj h
    obtain ⟨rfl, -⟩ := List.cons.inj rest
    refine ⟨?_, ?_, ?_⟩
    · simp only [isLeading, Bool.and_eq_true, decide_eq_true_eq]
      omega
    · simp only [isTrailing, Bool.and_eq_true, decide_eq_true_eq]
      omega
    · refine (congrArg CodePoint.ofNumber ?_).trans (CodePoint.ofNumber_number p)
      omega

end CodeUnit

/-- Whether a text consists of characters, with no surrogate among them. -/
def Text.Scalar (t : Text) : Prop := ∀ p ∈ t, ∃ c, p = .char c

namespace Json

/-- What a style must keep to so that its texts can be read back. -/
structure Style.Readable (style : Style) : Prop where
  lineBreak : ∀ d, ∀ p ∈ style.lineBreak d, isBlank p = true
  afterColon : ∀ p ∈ style.afterColon, isBlank p = true
  control : ∀ p : CodePoint, p.number < 0x20 → style.escapes p = true

theorem compactStyle_readable : compactStyle.Readable where
  lineBreak d p hp := nomatch hp
  afterColon p hp := nomatch hp
  control p hp := by simpa [compactStyle] using hp

theorem indentedStyle_readable : indentedStyle.Readable where
  lineBreak d p hp := by
    rcases List.mem_cons.1 hp with rfl | hp
    · rfl
    · rw [List.eq_of_mem_replicate hp]
      rfl
  afterColon p hp := by
    rw [List.mem_singleton.1 hp]
    rfl
  control p hp := by simp [indentedStyle, hp]

/-! ## Strings -/

/-- The pieces in which a code point is spelled. -/
def pieces (style : Style) (p : CodePoint) : List Piece :=
  if (shortEscape? p).isNone && style.escapes p then (CodeUnit.ofCodePoint p).map .unit
  else [.point p]

section Strings
variable {style : Style} {p : CodePoint} {rest : Text} {tail : List Piece} {used : Nat}

theorem joinPieces_unit {u : Nat} (h : CodeUnit.isLeading u = false) :
    joinPieces (.unit u :: tail) = CodeUnit.single u :: joinPieces tail := by
  cases tail with
  | nil => rfl
  | cons piece tail =>
    cases piece with
    | point q => rw [joinPieces, joinPieces]
    | unit v =>
      rw [joinPieces]
      simp [h]

theorem joinPieces_pieces (c : Char) :
    joinPieces (pieces style (.char c) ++ tail) = .char c :: joinPieces tail := by
  unfold pieces
  split
  · have pair := @CodeUnit.pair_ofCodePoint (.char c)
    unfold CodeUnit.ofCodePoint at pair ⊢
    split
    · have alone : joinPieces (.unit (CodePoint.char c).number :: tail) = _ :=
        joinPieces_unit (CodeUnit.isLeading_number c)
      rw [CodeUnit.single_number] at alone
      exact alone
    · next wide =>
      rw [if_neg wide] at pair
      obtain ⟨leading, trailing, same⟩ := pair rfl
      simp only [List.map_cons, List.map_nil, List.cons_append, List.nil_append]
      rw [joinPieces, leading, trailing, same]
      rfl
  · rw [List.singleton_append, joinPieces]

theorem joinPieces_flatMap {s : Text} (h : s.Scalar) :
    joinPieces (s.flatMap (pieces style)) = s := by
  induction s with
  | nil => rfl
  | cons p s ih =>
    obtain ⟨⟨c, rfl⟩, others⟩ := List.forall_mem_cons.1 h
    rw [List.flatMap_cons, joinPieces_pieces, ih others]

/-- A text has the given pieces up to its closing quote, however far from its opening quote. -/
def Closes (t : Text) (tail : List Piece) (used : Nat) : Prop :=
  ∀ offset, scanString offset t = .ok (tail, used)

theorem closes_quote (rest : Text) : Closes (.char '"' :: rest) [] 1 := by
  intro offset
  rw [scanString]

theorem Closes.ne_nil (h : Closes rest tail used) : rest ≠ [] := by
  rintro rfl
  cases h 0

theorem Closes.point (h : Closes rest tail used) (control : ¬p.number < 0x20)
    (quote : p ≠ .char '"') (backslash : p ≠ .char '\\') :
    Closes (p :: rest) (.point p :: tail) (used + 1) := by
  intro offset
  rw [scanString, if_neg control, h (offset + 1)]
  · rfl
  · exact quote
  all_goals
    intros
    exact backslash ‹_›

theorem Closes.short {e c : Char} (h : Closes rest tail used)
    (unescaped : unescape? (.char e) = some c) :
    Closes (.char '\\' :: .char e :: rest) (.point (.char c) :: tail) (used + 2) := by
  have other : CodePoint.char e ≠ .char 'u' := by
    intro same
    rw [same] at unescaped
    cases unescaped
  intro offset
  rw [scanString, if_neg other, unescaped, h (offset + 2)]
  · rfl
  · intros
    exact other ‹_›

theorem Closes.unit {u : Nat} (h : Closes rest tail used) (fits : u < 0x10000) :
    Closes (unitEscape u ++ rest) (.unit u :: tail) (used + 6) := by
  have followed : rest.isEmpty = false := List.isEmpty_eq_false_iff.2 h.ne_nil
  intro offset
  rw [unitEscape]
  simp only [List.cons_append, List.nil_append]
  rw [scanString, codeUnit?_digits fits, followed, h (offset + 6)]
  rfl

theorem Closes.units {us : List Nat} (h : Closes rest tail used) (fit : ∀ u ∈ us, u < 0x10000) :
    Closes (us.flatMap unitEscape ++ rest) (us.map .unit ++ tail)
      (used + (us.flatMap unitEscape).length) := by
  induction us with
  | nil => exact h
  | cons u us ih =>
    obtain ⟨first, others⟩ := List.forall_mem_cons.1 fit
    have spelled := (ih others).unit first
    rw [List.flatMap_cons, List.append_assoc, List.length_append,
      Nat.add_comm (unitEscape u).length, ← Nat.add_assoc]
    exact spelled

theorem Closes.spell (readable : style.Readable) (h : Closes rest tail used) :
    Closes (spell style p ++ rest) (pieces style p ++ tail) (used + (spell style p).length) := by
  unfold Json.spell pieces
  cases short : shortEscape? p with
  | some e =>
    obtain ⟨c, unescaped, rfl⟩ := unescape?_of_shortEscape? short
    exact h.short unescaped
  | none =>
    cases escaped : style.escapes p with
    | true => exact h.units fun u hu => CodeUnit.unit_lt hu
    | false =>
      have control : ¬p.number < 0x20 := by
        intro low
        rw [readable.control p low] at escaped
        cases escaped
      refine h.point control ?_ ?_
      all_goals
        rintro rfl
        cases short

theorem closes_spelled (readable : style.Readable) (s rest : Text) :
    Closes (s.flatMap (spell style) ++ .char '"' :: rest) (s.flatMap (pieces style))
      ((s.flatMap (spell style)).length + 1) := by
  induction s with
  | nil => exact closes_quote rest
  | cons p s ih =>
    have spelled := Closes.spell (p := p) readable ih
    rw [List.flatMap_cons, List.flatMap_cons, List.append_assoc, List.length_append, Nat.add_assoc,
      Nat.add_comm]
    exact spelled

end Strings

/-! ## Lexemes -/

section Tokens
variable {style : Style} {p : CodePoint} {b t rest : Text} {token : Token}

theorem tokens_lexemes (start : Nat) (t : Text) :
    (lexemes start t).map Lexeme.token = tokens t := by
  unfold tokens
  suffices ∀ n other, t.length ≤ n →
      (lexemes start t).map Lexeme.token = (lexemes other t).map Lexeme.token from
    this t.length 0 (Nat.le_refl _)
  intro n
  induction n generalizing start t with
  | zero =>
    intro other short
    rw [List.eq_nil_of_length_eq_zero (Nat.le_zero.1 short)]
    simp [lexemes]
  | succ n ih =>
    intro other short
    cases t with
    | nil => simp [lexemes]
    | cons p rest =>
      have bound : rest.length ≤ n := by
        simp only [List.length_cons] at short
        omega
      rw [lexemes, lexemes]
      split
      · exact ih _ _ _ bound
      · have left : (rest.drop (scan p rest).2).length ≤ n := by
          rw [List.length_drop]
          omega
        simp only [List.map_cons]
        rw [ih _ _ (other + 1 + (scan p rest).2) left]

theorem tokens_nil : tokens [] = [] := by
  rw [tokens, lexemes]
  rfl

theorem tokens_cons (h : isBlank p = false) :
    tokens (p :: rest) = (scan p rest).1 :: tokens (rest.drop (scan p rest).2) := by
  rw [tokens, lexemes, h]
  simp only [Bool.false_eq_true, if_false, List.map_cons]
  rw [tokens_lexemes]

theorem tokens_blanks (h : ∀ p ∈ b, isBlank p = true) : tokens (b ++ rest) = tokens rest := by
  induction b with
  | nil => rfl
  | cons p b ih =>
    obtain ⟨first, others⟩ := List.forall_mem_cons.1 h
    rw [List.cons_append, tokens, lexemes, if_pos first, tokens_lexemes, ih others]

theorem tokens_mark (h : isBlank p = false) (alone : scan p rest = (token, 0)) :
    tokens (p :: rest) = token :: tokens rest := by
  rw [tokens_cons h, alone, List.drop_zero]

theorem tokens_quote (readable : style.Readable) {s : Text} (h : s.Scalar) :
    tokens (quote style s ++ rest) = .text s :: tokens rest := by
  have closed := closes_spelled readable s rest 1
  have text : quote style s ++ rest =
      .char '"' :: (s.flatMap (spell style) ++ .char '"' :: rest) := by
    simp [quote]
  have scanned : scan (.char '"') (s.flatMap (spell style) ++ .char '"' :: rest) =
      (.text s, (s.flatMap (spell style)).length + 1) := by
    rw [scan, closed]
    simp only [joinPieces_flatMap h]
  rw [text, tokens_cons rfl, scanned, List.drop_length_add_append]
  rfl

end Tokens

mutual

/-- The tokens in which a value is written. -/
def written : Json → List Token
  | .scalar (.string s) => [.text s]
  | .scalar s => [.word s]
  | .array [] => [.openArray, .closeArray]
  | .array (x :: xs) => .openArray :: written x ++ writtenElements xs ++ [.closeArray]
  | .object [] => [.openObject, .closeObject]
  | .object ((name, x) :: ms) =>
    [.openObject, .text name, .colon] ++ written x ++ writtenMembers ms ++ [.closeObject]

def writtenElements : List Json → List Token
  | [] => []
  | x :: xs => .comma :: written x ++ writtenElements xs

def writtenMembers : List (Text × Json) → List Token
  | [] => []
  | (name, x) :: ms => [.comma, .text name, .colon] ++ written x ++ writtenMembers ms

end

/-- Whether a value is built from strings of characters, and its objects have distinct names. -/
inductive Legible : Json → Prop where
  | string {s : Text} (scalar : s.Scalar) : Legible (.string s)
  | array {xs : List Json} (elements : ∀ x ∈ xs, Legible x) : Legible (.array xs)
  | object {ms : List (Text × Json)} (distinct : (ms.map Prod.fst).Nodup)
      (names : ∀ m ∈ ms, m.1.Scalar) (members : ∀ m ∈ ms, Legible m.2) : Legible (.object ms)

section Printed
variable {style : Style} {d : Nat} {rest : Text}

/-- The text of a value is cut into its tokens, whatever follows it. -/
def Cut (style : Style) (x : Json) : Prop :=
  ∀ d rest, tokens (print style d x ++ rest) = written x ++ tokens rest

theorem tokens_printElements (readable : style.Readable) {xs : List Json}
    (parts : ∀ x ∈ xs, Cut style x) :
    tokens (printElements style d xs ++ rest) = writtenElements xs ++ tokens rest := by
  induction xs with
  | nil => simp [printElements, writtenElements]
  | cons x xs ih =>
    obtain ⟨first, others⟩ := List.forall_mem_cons.1 parts
    rw [printElements, writtenElements]
    simp only [List.cons_append, List.append_assoc]
    rw [tokens_mark rfl rfl, tokens_blanks (readable.lineBreak d), first, ih others]

theorem tokens_printMembers (readable : style.Readable) {ms : List (Text × Json)}
    (names : ∀ m ∈ ms, m.1.Scalar) (parts : ∀ m ∈ ms, Cut style m.2) :
    tokens (printMembers style d ms ++ rest) = writtenMembers ms ++ tokens rest := by
  induction ms with
  | nil => simp [printMembers, writtenMembers]
  | cons m ms ih =>
    obtain ⟨name, x⟩ := m
    obtain ⟨named, otherNames⟩ := List.forall_mem_cons.1 names
    obtain ⟨first, others⟩ := List.forall_mem_cons.1 parts
    rw [printMembers, writtenMembers]
    simp only [List.cons_append, List.append_assoc, List.nil_append]
    rw [tokens_mark rfl rfl, tokens_blanks (readable.lineBreak d), tokens_quote readable named,
      tokens_mark rfl rfl, tokens_blanks readable.afterColon, first, ih otherNames others]

theorem tokens_print (readable : style.Readable) {v : Json} (h : v.Legible) : Cut style v := by
  induction h with
  | string scalar =>
    intro d rest
    exact tokens_quote readable scalar
  | @array xs _ ih =>
    intro d rest
    cases xs with
    | nil =>
      rw [print, written]
      simp only [List.cons_append, List.nil_append]
      rw [tokens_mark rfl rfl, tokens_mark rfl rfl]
    | cons x xs =>
      obtain ⟨first, others⟩ := List.forall_mem_cons.1 ih
      rw [print, written]
      simp only [List.cons_append, List.append_assoc, List.nil_append]
      rw [tokens_mark rfl rfl, tokens_blanks (readable.lineBreak (d + 1)), first,
        tokens_printElements readable others, tokens_blanks (readable.lineBreak d),
        tokens_mark rfl rfl]
  | @object ms _ names _ ih =>
    intro d rest
    rcases ms with _ | ⟨⟨name, x⟩, ms⟩
    · rw [print, written]
      simp only [List.cons_append, List.nil_append]
      rw [tokens_mark rfl rfl, tokens_mark rfl rfl]
    · obtain ⟨named, otherNames⟩ := List.forall_mem_cons.1 names
      obtain ⟨first, others⟩ := List.forall_mem_cons.1 ih
      rw [print, written]
      simp only [List.cons_append, List.append_assoc, List.nil_append]
      rw [tokens_mark rfl rfl, tokens_blanks (readable.lineBreak (d + 1)),
        tokens_quote readable named, tokens_mark rfl rfl, tokens_blanks readable.afterColon, first,
        tokens_printMembers readable otherNames others, tokens_blanks (readable.lineBreak d),
        tokens_mark rfl rfl]

end Printed

end Json

end SchemaInference
