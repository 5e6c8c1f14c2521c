import SchemaInference.Text.Visible

/-!
# Quoted names

How the name of a file is shown inside a message: between quotes, with a backslash
before quotes and backslashes, and with escapes for everything that is not visible.
-/

namespace SchemaInference.Text

/-- The last `count` hexadecimal digits of a number. -/
def hexDigits (count n : Nat) : Text :=
  (List.range count).map fun i => .char <| Nat.digitChar (n >>> (4 * (count - 1 - i)) % 16)

def quotedPoint (mark p : CodePoint) : Text :=
  if p = mark || p = '\\' then ['\\', p]
  else if p = '\t' then ['\\', 't']
  else if p = '\n' then ['\\', 'n']
  else if p = '\r' then ['\\', 'r']
  else if isVisible p then [p]
  else if p.number < 0x100 then '\\' :: 'x' :: hexDigits 2 p.number
  else if p.number < 0x10000 then '\\' :: 'u' :: hexDigits 4 p.number
  else '\\' :: 'U' :: hexDigits 8 p.number

/-- The quote that is put around a text: a double one only if that saves escapes. -/
def quoteMark (t : Text) : CodePoint :=
  if t.contains (.char '\'') && !t.contains (.char '"') then '"' else '\''

def quoted (t : Text) : Text :=
  let mark := quoteMark t
  mark :: t.flatMap (quotedPoint mark) ++ [mark]

end SchemaInference.Text
