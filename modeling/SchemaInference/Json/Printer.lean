import SchemaInference.Json.Value
import SchemaInference.Text.CodeUnit

/-!
# Writing JSON

One printer with two styles.  The compact style writes nothing between tokens and
escapes only what must be escaped; the indented style puts every element on a line
of its own, two spaces deeper than its container, and writes ASCII alone.
-/

namespace SchemaInference.Json

/-- The spacing and the spelling of strings that a text keeps to. -/
structure Style where
  /-- What separates an element from what precedes it, by the depth at which it stands. -/
  lineBreak : Nat → Text
  /-- What follows the colon of a member. -/
  afterColon : Text
  /-- Whether a code point is spelled by its code units. -/
  escapes : CodePoint → Bool

/-- No spacing, and no escape that is not required. -/
def compactStyle : Style where
  lineBreak _ := []
  afterColon := []
  escapes p := p.number < 0x20

/-- One element a line, two spaces for each level, and printable ASCII alone. -/
def indentedStyle : Style where
  lineBreak depth := '\n' :: List.replicate (2 * depth) (.char ' ')
  afterColon := [' ']
  escapes p := p.number < 0x20 || 0x7F ≤ p.number

/-- The letter that spells a code point after a backslash, where there is one. -/
def shortEscape? : CodePoint → Option Char
  | .char '"' => some '"'
  | .char '\\' => some '\\'
  | .char '\n' => some 'n'
  | .char '\r' => some 'r'
  | .char '\t' => some 't'
  | .char '\x08' => some 'b'
  | .char '\x0c' => some 'f'
  | _ => none

/-- A code unit as an escape of four hexadecimal digits. -/
def unitEscape (u : Nat) : Text :=
  ['\\', 'u', Nat.digitChar (u / 0x1000 % 16), Nat.digitChar (u / 0x100 % 16),
    Nat.digitChar (u / 0x10 % 16), Nat.digitChar (u % 16)]

/-- The spelling of a code point inside a string. -/
def spell (style : Style) (p : CodePoint) : Text :=
  match shortEscape? p with
  | some e => ['\\', e]
  | none => if style.escapes p then (CodeUnit.ofCodePoint p).flatMap unitEscape else [p]

def quote (style : Style) (s : Text) : Text :=
  .char '"' :: s.flatMap (spell style) ++ [.char '"']

/-- An integer in decimal digits, behind a minus sign if it is negative. -/
def decimal : Int → Text
  | .ofNat n => (Nat.toDigits 10 n).map .char
  | .negSucc n => .char '-' :: (Nat.toDigits 10 (n + 1)).map .char

def printScalar (style : Style) : Scalar → Text
  | .null => "null"
  | .bool true => "true"
  | .bool false => "false"
  | .integer n => decimal n
  | .real literal => literal
  | .string s => quote style s

mutual

/-- The text of a value that stands at `depth`. -/
def print (style : Style) (depth : Nat) : Json → Text
  | .scalar s => printScalar style s
  | .array [] => ['[', ']']
  | .array (x :: xs) =>
    .char '[' :: style.lineBreak (depth + 1) ++ print style (depth + 1) x
      ++ printElements style (depth + 1) xs ++ style.lineBreak depth ++ [.char ']']
  | .object [] => ['{', '}']
  | .object ((name, x) :: ms) =>
    .char '{' :: style.lineBreak (depth + 1) ++ quote style name ++ .char ':' :: style.afterColon
      ++ print style (depth + 1) x ++ printMembers style (depth + 1) ms
      ++ style.lineBreak depth ++ [.char '}']

/-- The text of the elements after the first, which stand at `depth`. -/
def printElements (style : Style) (depth : Nat) : List Json → Text
  | [] => []
  | x :: xs =>
    .char ',' :: style.lineBreak depth ++ print style depth x ++ printElements style depth xs

/-- The text of the members after the first, which stand at `depth`. -/
def printMembers (style : Style) (depth : Nat) : List (Text × Json) → Text
  | [] => []
  | (name, x) :: ms =>
    .char ',' :: style.lineBreak depth ++ quote style name ++ .char ':' :: style.afterColon
      ++ print style depth x ++ printMembers style depth ms

end

/-- The text of a value on one line. -/
def compact (j : Json) : Text := print compactStyle 0 j

/-- The text of a value with one element a line, in ASCII. -/
def indented (j : Json) : Text := print indentedStyle 0 j

end SchemaInference.Json
