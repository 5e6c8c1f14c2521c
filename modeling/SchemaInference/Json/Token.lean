import SchemaInference.Json.Value
import SchemaInference.Text.CodeUnit

/-!
# JSON tokens

A text is cut into lexemes: brackets, separators, strings and words, the last
being numbers and the names of constants.  Blanks separate lexemes and are
dropped.  Cutting never fails.  What cannot be read becomes a token that says so,
and since nothing may follow it, it takes the rest of the text with it; whether it
is reported depends on what the grammar expects at its place.
-/

namespace SchemaInference.Json

inductive Complaint where
  | missingValue
  | missingName
  | missingColon
  | missingComma
  | extraData
  | byteOrderMark
  | unterminatedString
  | controlCharacter
  | unknownEscape
  | badCodeUnit
  deriving DecidableEq, Repr

inductive Token where
  | openArray
  | closeArray
  | openObject
  | closeObject
  | comma
  | colon
  | word (value : Scalar)
  | text (value : Text)
  /-- An integer with more digits than are read. -/
  | overlong (digits : Nat)
  /-- A string with a fault at some distance from its quote. -/
  | broken (complaint : Complaint) (offset : Nat)
  /-- A code point that starts no token. -/
  | stray
  deriving DecidableEq, Repr

/-- A token with the number of code points before it. -/
structure Lexeme where
  start : Nat
  token : Token
  deriving DecidableEq, Repr

/-- The blanks that may stand between tokens. -/
def isBlank (p : CodePoint) : Bool := p = ' ' || p = '\t' || p = '\n' || p = '\r'

/-! ## Strings -/

/-- A part of a string as it is written: a code point, or an escaped code unit. -/
inductive Piece where
  | point (p : CodePoint)
  | unit (u : Nat)
  deriving DecidableEq, Repr

def hexDigit? : CodePoint → Option Nat
  | .surrogate _ => none
  | .char c =>
    if '0' ≤ c && c ≤ '9' then some (c.toNat - 48)
    else if 'a' ≤ c && c ≤ 'f' then some (c.toNat - 87)
    else if 'A' ≤ c && c ≤ 'F' then some (c.toNat - 55)
    else none

/-- The code unit written by four hexadecimal digits. -/
def codeUnit? (a b c d : CodePoint) : Option Nat := do
  let a ← hexDigit? a
  let b ← hexDigit? b
  let c ← hexDigit? c
  let d ← hexDigit? d
  return ((a * 16 + b) * 16 + c) * 16 + d

/-- The character that a letter spells after a backslash. -/
def unescape? : CodePoint → Option Char
  | .char '"' => some '"'
  | .char '\\' => some '\\'
  | .char '/' => some '/'
  | .char 'n' => some '\n'
  | .char 'r' => some '\r'
  | .char 't' => some '\t'
  | .char 'b' => some '\x08'
  | .char 'f' => some '\x0c'
  | _ => none

/-- Puts a piece in front of a scanned string, of which it takes `width` characters. -/
def prependPiece (piece : Piece) (width : Nat) (tail : List Piece × Nat) : List Piece × Nat :=
  (piece :: tail.1, tail.2 + width)

/--
The pieces of a string up to its closing quote, with the number of code points that
they and the quote take.  `offset` is the distance of the text from the opening
quote.  A code unit is read only if something follows its digits.
-/
def scanString (offset : Nat) : Text → Except (Complaint × Nat) (List Piece × Nat)
  | [] => .error (.unterminatedString, 0)
  | .char '"' :: _ => .ok ([], 1)
  | .char '\\' :: .char 'u' :: a :: b :: c :: d :: rest =>
    match codeUnit? a b c d, rest.isEmpty with
    | some u, false => (scanString (offset + 6) rest).map (prependPiece (.unit u) 6)
    | _, _ => .error (.badCodeUnit, offset + 1)
  | [.char '\\'] => .error (.unterminatedString, 0)
  | .char '\\' :: e :: rest =>
    if e = 'u' then .error (.badCodeUnit, offset + 1)
    else match unescape? e with
      | some c => (scanString (offset + 2) rest).map (prependPiece (.point c) 2)
      | none => .error (.unknownEscape, offset)
  | p :: rest =>
    if p.number < 0x20 then .error (.controlCharacter, offset)
    else (scanString (offset + 1) rest).map (prependPiece (.point p) 1)

/-- The text of the pieces; two code units that form a pair are one character. -/
def joinPieces : List Piece → Text
  | [] => []
  | .point p :: rest => p :: joinPieces rest
  | [.unit u] => [CodeUnit.single u]
  | .unit u :: .point p :: rest => CodeUnit.single u :: p :: joinPieces rest
  | .unit u :: .unit v :: rest =>
    if CodeUnit.isLeading u && CodeUnit.isTrailing v then CodeUnit.pair u v :: joinPieces rest
    else CodeUnit.single u :: joinPieces (.unit v :: rest)

/-! ## Words -/

/-- The constants and the three numbers without digits. -/
def constants : List (Text × Scalar) :=
  [("null", .null), ("true", .bool true), ("false", .bool false), ("NaN", .real "NaN"),
    ("Infinity", .real "Infinity"), ("-Infinity", .real "-Infinity")]

/-- The constant at the start of a text, with its length. -/
def scanConstant (t : Text) : Option (Scalar × Nat) :=
  (constants.find? fun c => c.1.isPrefixOf t).map fun c => (c.2, c.1.length)

def isDigit (p : CodePoint) : Bool := 0x30 ≤ p.number && p.number ≤ 0x39

def digitsValue (ds : Text) : Nat := ds.foldl (fun n d => n * 10 + (d.number - 0x30)) 0

/-- The digits before the fraction: a zero alone, or digits that do not start with zero. -/
def wholeDigits : Text → Text
  | [] => []
  | p :: rest =>
    if p = '0' then [p] else if isDigit p then p :: rest.takeWhile isDigit else []

/-- A fraction, which is a point and at least one digit. -/
def fraction : Text → Text
  | .char '.' :: rest =>
    let digits := rest.takeWhile isDigit
    if digits.isEmpty then [] else '.' :: digits
  | _ => []

/-- A plus or minus sign, if the text starts with one. -/
def sign : Text → Text
  | .char '+' :: _ => ['+']
  | .char '-' :: _ => ['-']
  | _ => []

/-- An exponent, which is the letter, an optional sign and at least one digit. -/
def exponent : Text → Text
  | e :: rest =>
    if e = 'e' || e = 'E' then
      let digits := (rest.drop (sign rest).length).takeWhile isDigit
      if digits.isEmpty then [] else e :: sign rest ++ digits
    else []
  | [] => []

/-- The most digits that an integer may have. -/
def digitLimit : Nat := 4300

def integerToken (negative : Bool) (digits : Text) : Token :=
  if digitLimit < digits.length then .overlong digits.length
  else .word (.integer (if negative then -(digitsValue digits : Int) else digitsValue digits))

/-- The longest number at the start of a text, with its length. -/
def scanNumber (t : Text) : Option (Token × Nat) :=
  let minus : Text := match t with
    | .char '-' :: _ => ['-']
    | _ => []
  let afterMinus := t.drop minus.length
  let whole := wholeDigits afterMinus
  let afterWhole := afterMinus.drop whole.length
  let fractional := fraction afterWhole
  let power := exponent (afterWhole.drop fractional.length)
  let literal := minus ++ whole ++ fractional ++ power
  if whole.isEmpty then none
  else if fractional.isEmpty && power.isEmpty then
    some (integerToken (!minus.isEmpty) whole, literal.length)
  else some (.word (.real literal), literal.length)

def scanWord (t : Text) : Option (Token × Nat) :=
  match scanConstant t with
  | some (s, length) => some (.word s, length)
  | none => scanNumber t

/-! ## Lexemes -/

/-- The token that starts with `p`, with the number of code points of `rest` that it takes. -/
def scan (p : CodePoint) (rest : Text) : Token × Nat :=
  match p with
  | .char '[' => (.openArray, 0)
  | .char ']' => (.closeArray, 0)
  | .char '{' => (.openObject, 0)
  | .char '}' => (.closeObject, 0)
  | .char ',' => (.comma, 0)
  | .char ':' => (.colon, 0)
  | .char '"' =>
    match scanString 1 rest with
    | .ok (pieces, used) => (.text (joinPieces pieces), used)
    | .error (complaint, offset) => (.broken complaint offset, rest.length)
  | _ =>
    match scanWord (p :: rest) with
    | some (token, length) => (token, length - 1)
    | none => (.stray, rest.length)

/-- The lexemes of a text before which `start` code points stand. -/
def lexemes (start : Nat) : Text → List Lexeme
  | [] => []
  | p :: rest =>
    if isBlank p then lexemes (start + 1) rest
    else
      let (token, used) := scan p rest
      ⟨start, token⟩ :: lexemes (start + 1 + used) (rest.drop used)
termination_by t => t.length
decreasing_by
  · simp
  · simp only [List.length_drop, List.length_cons]; omega

def tokens (t : Text) : List Token := (lexemes 0 t).map Lexeme.token

end SchemaInference.Json
