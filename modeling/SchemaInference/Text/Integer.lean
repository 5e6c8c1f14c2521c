import SchemaInference.Text.Blank

/-!
# Integers given as text

The integers that an option takes: digits of any script that writes numbers in
decimal, single underscores between digits, a sign in front, and blanks around.
-/

namespace SchemaInference.Text

/-- The zeros of the decimal digits of Unicode 14; the other nine digits follow each zero. -/
def zeros : List Nat :=
  [0x0030, 0x0660, 0x06F0, 0x07C0, 0x0966, 0x09E6, 0x0A66, 0x0AE6, 0x0B66, 0x0BE6, 0x0C66, 0x0CE6,
    0x0D66, 0x0DE6, 0x0E50, 0x0ED0, 0x0F20, 0x1040, 0x1090, 0x17E0, 0x1810, 0x1946, 0x19D0, 0x1A80,
    0x1A90, 0x1B50, 0x1BB0, 0x1C40, 0x1C50, 0xA620, 0xA8D0, 0xA900, 0xA9D0, 0xA9F0, 0xAA50, 0xABF0,
    0xFF10, 0x104A0, 0x10D30, 0x11066, 0x110F0, 0x11136, 0x111D0, 0x112F0, 0x11450, 0x114D0,
    0x11650, 0x116C0, 0x11730, 0x118E0, 0x11950, 0x11C50, 0x11D50, 0x11DA0, 0x16A60, 0x16AC0,
    0x16B50, 0x1D7CE, 0x1D7D8, 0x1D7E2, 0x1D7EC, 0x1D7F6, 0x1E140, 0x1E2F0, 0x1E950, 0x1FBF0]

def digit? (p : CodePoint) : Option Nat :=
  zeros.findSome? fun first =>
    if first ≤ p.number && p.number < first + 10 then some (p.number - first) else none

/-- The digits of a numeral, in which an underscore stands only between two digits. -/
def numeral? (digitDue : Bool) : Text → Option (List Nat)
  | [] => if digitDue then none else some []
  | p :: rest =>
    if p = '_' then (if digitDue then none else numeral? true rest)
    else match digit? p, numeral? false rest with
      | some d, some ds => some (d :: ds)
      | _, _ => none

/-- The most digits that a numeral may have. -/
def numeralLimit : Nat := 4300

/-- Whether a code point may stand around a number; the information separators may not. -/
def isAroundNumber (p : CodePoint) : Bool :=
  isBlank p && !(0x1C ≤ p.number && p.number ≤ 0x1F)

def natural? (t : Text) : Option Nat :=
  match numeral? true t with
  | none => none
  | some ds => if numeralLimit < ds.length then none else some (ds.foldl (fun n d => n * 10 + d) 0)

def integer? (t : Text) : Option Int :=
  let inner := ((t.dropWhile isAroundNumber).reverse.dropWhile isAroundNumber).reverse
  match inner with
  | .char '-' :: rest => (natural? rest).map fun n => -(n : Int)
  | .char '+' :: rest => (natural? rest).map Int.ofNat
  | unsigned => (natural? unsigned).map Int.ofNat

/-- Whether a text has the form of a negative number, with or without a decimal point. -/
def isNegativeNumber (t : Text) : Bool :=
  let isDigit := fun p => (digit? p).isSome
  match t with
  | .char '-' :: rest =>
    let unsigned := if rest.getLast? = some (.char '\n') then rest.dropLast else rest
    match unsigned.dropWhile isDigit with
    | [] => !unsigned.isEmpty
    | .char '.' :: decimals => !decimals.isEmpty && decimals.all isDigit
    | _ => false
  | _ => false

end SchemaInference.Text
