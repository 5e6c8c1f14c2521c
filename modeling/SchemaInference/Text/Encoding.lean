import SchemaInference.Text.CodeUnit

/-!
# Decoding octets

Octets are decoded as UTF-8, UTF-16 or UTF-32.  `decodeFile` is for files, which are
UTF-8.  `decodeDocument` is for documents that arrive as octets: their encoding is
told by a byte order mark, or else by where the first zero octets stand, and
surrogates that stand alone are let through.
-/

namespace SchemaInference.Encoding

/-- Why octets are no text: an encoding, a range of positions, and what is wrong there. -/
structure DecodeError where
  encoding : String
  /-- The octet at the start of the range. -/
  octet : UInt8
  start : Nat
  /-- The position after the range. -/
  stop : Nat
  reason : String
  deriving DecidableEq, Repr

def hexOctet (b : UInt8) : String :=
  String.ofList [Nat.digitChar (b.toNat / 16), Nat.digitChar (b.toNat % 16)]

/-- The wording of an error; a range of one position is worded by its octet. -/
def DecodeError.message (e : DecodeError) : String :=
  let place :=
    if e.stop = e.start + 1 then s!"byte 0x{hexOctet e.octet} in position {e.start}"
    else s!"bytes in position {e.start}-{e.stop - 1}"
  s!"'{e.encoding}' codec can't decode {place}: {e.reason}"

/-! ## UTF-8 -/

/-- A character whose octets have been read in part. -/
structure Partial where
  /-- The first octet and its position. -/
  octet : UInt8
  start : Nat
  /-- The bits read so far. -/
  bits : Nat
  /-- The number of octets still to come. -/
  missing : Nat
  /-- The range of the next octet. -/
  low : Nat
  high : Nat
  /-- Whether the octets read so far can only give a surrogate. -/
  unpaired : Bool

/-- What the first octet of a character announces, for an octet above the ASCII range. -/
def Partial.begin? (lenient : Bool) (b : UInt8) (position : Nat) : Option Partial :=
  let n := b.toNat
  let begin (bits missing low high : Nat) : Option Partial :=
    some ⟨b, position, bits, missing, low, high, false⟩
  if n < 0xC2 then none
  else if n < 0xE0 then begin (n - 0xC0) 1 0x80 0xBF
  else if n = 0xE0 then begin 0 2 0xA0 0xBF
  else if n = 0xED && !lenient then begin 0xD 2 0x80 0x9F
  else if n < 0xF0 then begin (n - 0xE0) 2 0x80 0xBF
  else if n = 0xF0 then begin 0 3 0x90 0xBF
  else if n < 0xF4 then begin (n - 0xF0) 3 0x80 0xBF
  else if n = 0xF4 then begin 4 3 0x80 0x8F
  else none

/-- The partial character after one more octet. -/
def Partial.extend (p : Partial) (b : UInt8) : Partial :=
  { p with
    bits := p.bits * 0x40 + (b.toNat - 0x80)
    missing := p.missing - 1
    low := 0x80
    high := 0xBF
    unpaired := p.unpaired || (p.octet = 0xED && p.missing = 2 && 0xA0 ≤ b.toNat) }

/-- The error of a partial character that is not continued at `position`. -/
def Partial.fault (p : Partial) (position : Nat) (reason : String) : DecodeError :=
  if p.unpaired then ⟨"utf-8", p.octet, p.start, p.start + 1, "invalid continuation byte"⟩
  else ⟨"utf-8", p.octet, p.start, position, reason⟩

/--
The text of octets in UTF-8, from `position` and inside `pending` if a character has
begun.  Surrogates are let through if `lenient`.
-/
def utf8From (lenient : Bool) (position : Nat) (pending : Option Partial) :
    List UInt8 → Except DecodeError Text
  | [] =>
    match pending with
    | none => .ok []
    | some p => .error (p.fault position "unexpected end of data")
  | b :: rest =>
    match pending with
    | none =>
      if b.toNat < 0x80 then
        (utf8From lenient (position + 1) none rest).map (.ofNumber b.toNat :: ·)
      else match Partial.begin? lenient b position with
        | none => .error ⟨"utf-8", b, position, position + 1, "invalid start byte"⟩
        | some p => utf8From lenient (position + 1) (some p) rest
    | some p =>
      if p.low ≤ b.toNat && b.toNat ≤ p.high then
        let q := p.extend b
        if q.missing = 0 then
          (utf8From lenient (position + 1) none rest).map (.ofNumber q.bits :: ·)
        else utf8From lenient (position + 1) (some q) rest
      else .error (p.fault position "invalid continuation byte")

/-! ## UTF-16 and UTF-32 -/

inductive ByteOrder where
  | little
  | big
  deriving DecidableEq, Repr

/-- How an order is written in the name of an encoding. -/
def ByteOrder.suffix : ByteOrder → String
  | .little => "-le"
  | .big => "-be"

/-- The number that octets stand for, the most significant one first in the big order. -/
def ByteOrder.value (order : ByteOrder) (octets : List UInt8) : Nat :=
  let bigEndian := match order with
    | .little => octets.reverse
    | .big => octets
  bigEndian.foldl (fun n b => n * 0x100 + b.toNat) 0

def joinUnits : List Nat → Text
  | [] => []
  | [u] => [CodeUnit.single u]
  | u :: v :: rest =>
    if CodeUnit.isLeading u && CodeUnit.isTrailing v then CodeUnit.pair u v :: joinUnits rest
    else CodeUnit.single u :: joinUnits (v :: rest)

/-- The code units of octets in UTF-16 from `position` on. -/
def utf16Units (order : ByteOrder) (position : Nat) : List UInt8 → Except DecodeError (List Nat)
  | [] => .ok []
  | [b] => .error ⟨"utf-16" ++ order.suffix, b, position, position + 1, "truncated data"⟩
  | a :: b :: rest =>
    (utf16Units order (position + 2) rest).map (order.value [a, b] :: ·)

/-- The text of octets in UTF-16 from `position` on. -/
def utf16From (order : ByteOrder) (position : Nat) (octets : List UInt8) :
    Except DecodeError Text :=
  (utf16Units order position octets).map joinUnits

/-- The text of octets in UTF-32 from `position` on. -/
def utf32From (order : ByteOrder) (position : Nat) : List UInt8 → Except DecodeError Text
  | [] => .ok []
  | a :: b :: c :: d :: rest =>
    let n := order.value [a, b, c, d]
    if n < 0x110000 then (utf32From order (position + 4) rest).map (.ofNumber n :: ·)
    else .error ⟨"utf-32" ++ order.suffix, a, position, position + 4,
      "code point not in range(0x110000)"⟩
  | a :: rest =>
    .error ⟨"utf-32" ++ order.suffix, a, position, position + 1 + rest.length, "truncated data"⟩

/-! ## Which encoding -/

/-- The text of a file. -/
def decodeFile (octets : List UInt8) : Except DecodeError Text :=
  utf8From false 0 none octets

/-- The text of a document, in the encoding that its first octets tell. -/
def decodeDocument (octets : List UInt8) : Except DecodeError Text :=
  match octets with
  | 0x00 :: 0x00 :: 0xFE :: 0xFF :: rest => utf32From .big 4 rest
  | 0xFF :: 0xFE :: 0x00 :: 0x00 :: rest => utf32From .little 4 rest
  | 0xFE :: 0xFF :: rest => utf16From .big 2 rest
  | 0xFF :: 0xFE :: rest => utf16From .little 2 rest
  | 0xEF :: 0xBB :: 0xBF :: rest => utf8From true 0 none rest
  | a :: b :: c :: d :: _ =>
    if a = 0 then (if b = 0 then utf32From .big 0 octets else utf16From .big 0 octets)
    else if b = 0 then
      (if c = 0 && d = 0 then utf32From .little 0 octets else utf16From .little 0 octets)
    else utf8From true 0 none octets
  | [a, b] =>
    if a = 0 then utf16From .big 0 octets
    else if b = 0 then utf16From .little 0 octets
    else utf8From true 0 none octets
  | _ => utf8From true 0 none octets

end SchemaInference.Encoding
