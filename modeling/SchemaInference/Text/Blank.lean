import SchemaInference.Text.Basic

/-!
# Blank text and lines

The code points that count as blank at the ends of a text, which are those of
Unicode's property of white space together with the four information separators,
and the lines of a text.  A text that was read from a file has its line ends
normalised, so that a line ends with a line feed only.
-/

namespace SchemaInference.Text

def isBlank (p : CodePoint) : Bool :=
  let n := p.number
  0x09 ≤ n && n ≤ 0x0D || 0x1C ≤ n && n ≤ 0x20 || n = 0x85 || n = 0xA0 || n = 0x1680
    || 0x2000 ≤ n && n ≤ 0x200A || n = 0x2028 || n = 0x2029 || n = 0x202F || n = 0x205F
    || n = 0x3000

/-- A text without the blanks at its two ends. -/
def strip (t : Text) : Text :=
  ((t.dropWhile isBlank).reverse.dropWhile isBlank).reverse

/-- The pieces of a text between line feeds, one more than there are line feeds. -/
def lines : Text → List Text
  | [] => [[]]
  | p :: rest =>
    if p = '\n' then [] :: lines rest
    else match lines rest with
      | [] => [[p]]
      | line :: others => (p :: line) :: others

/-- The text with every carriage return, and any line feed after it, made one line feed. -/
def normalizeLineEnds : Text → Text
  | [] => []
  | .char '\r' :: .char '\n' :: rest => '\n' :: normalizeLineEnds rest
  | .char '\r' :: rest => '\n' :: normalizeLineEnds rest
  | p :: rest => p :: normalizeLineEnds rest

theorem lines_ne_nil (t : Text) : lines t ≠ [] := by
  induction t with
  | nil => simp [lines]
  | cons p rest ih =>
      unfold lines
      split
      · simp
      · split <;> simp_all

end SchemaInference.Text
