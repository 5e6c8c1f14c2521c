import SchemaInference.Text.Basic

/-!
# Sixteen-bit code units

A character is written as one unit, or as two when its number does not fit: a
leading unit from `0xD800` and a trailing unit from `0xDC00`.  A unit in these two
ranges that does not stand in such a pair is a surrogate of its own.
-/

namespace SchemaInference.CodeUnit

def isLeading (u : Nat) : Bool := 0xD800 ≤ u && u < 0xDC00

def isTrailing (u : Nat) : Bool := 0xDC00 ≤ u && u < 0xE000

def ofCodePoint (p : CodePoint) : List Nat :=
  if p.number < 0x10000 then [p.number]
  else [0xD800 + (p.number - 0x10000) / 0x400, 0xDC00 + (p.number - 0x10000) % 0x400]

/-- The code point that a pair of units stands for. -/
def pair (leading trailing : Nat) : CodePoint :=
  .ofNumber (0x10000 + (leading - 0xD800) * 0x400 + (trailing - 0xDC00))

/-- The code point that a unit stands for outside a pair. -/
def single (u : Nat) : CodePoint := .ofNumber u

end SchemaInference.CodeUnit
