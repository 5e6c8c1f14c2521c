import SchemaInference.Text.Quoted

/-!
# File names

A file system knows a name by its octets, which are the name in UTF-8.  The surrogates
from `0xDC80` to `0xDCFF` stand for single octets that are no text; a name with another
surrogate, or with a null character, names nothing.
-/

namespace SchemaInference

/-- Why a file or directory cannot be opened or made. -/
inductive FileFault where
  | missing
  | present
  | notDirectory
  | isDirectory
  | longName
  deriving DecidableEq, Repr

def FileFault.message : FileFault → String
  | .missing => "[Errno 2] No such file or directory"
  | .present => "[Errno 17] File exists"
  | .notDirectory => "[Errno 20] Not a directory"
  | .isDirectory => "[Errno 21] Is a directory"
  | .longName => "[Errno 36] File name too long"

inductive FileError where
  /-- A file has a fault, or else a directory above it, which is named then. -/
  | named (fault : FileFault) (name : Text)
  | nullInName
  /-- A name holds surrogates from one position up to another, the given one first. -/
  | surrogatesInName (first : CodePoint) (start stop : Nat)
  deriving DecidableEq, Repr

def FileError.message : FileError → Text
  | .named fault name => fault.message ++ ": " ++ name.quoted
  | .nullInName => "embedded null byte"
  | .surrogatesInName first start stop =>
    let place : Text :=
      if stop = start + 1 then "character " ++ Text.quoted [first] ++ s!" in position {start}"
      else s!"characters in position {start}-{stop - 1}"
    "'utf-8' codec can't encode " ++ place ++ ": surrogates not allowed"

namespace FileName

def isSurrogate : CodePoint → Bool
  | .char _ => false
  | .surrogate _ => true

/-- The octet for which the surrogate at `0xD800 + index` stands, if it stands for one. -/
def octet? (index : Fin 0x800) : Option UInt8 :=
  if 0x480 ≤ index.val && index.val < 0x500 then some (UInt8.ofNat (index.val - 0x400)) else none

/-- The octets of the part of a name before which `position` code points stand. -/
def encodeFrom (position : Nat) : Text → Except FileError (List UInt8)
  | [] => .ok []
  | .char c :: rest => (encodeFrom (position + 1) rest).map (String.utf8EncodeChar c ++ ·)
  | .surrogate index :: rest =>
    match octet? index with
    | some octet => (encodeFrom (position + 1) rest).map (octet :: ·)
    | none =>
      .error (.surrogatesInName (.surrogate index) position
        (position + 1 + (rest.takeWhile isSurrogate).length))

def encode (name : Text) : Except FileError (List UInt8) := do
  let octets ← encodeFrom 0 name
  if octets.contains 0 then throw .nullInName
  return octets

/-- The part of a name up to its last slash, with that slash. -/
def upToSlash (name : Text) : Text := (name.reverse.dropWhile (· ≠ .char '/')).reverse

/-- A text without the slashes at its end, unless it holds nothing else. -/
def dropSlashes (t : Text) : Text :=
  match t.reverse.dropWhile (· = .char '/') with
  | [] => t
  | kept => kept.reverse

/-- The name of the directory in which a file stands, empty where no directory is named. -/
def directory (name : Text) : Text := dropSlashes (upToSlash name)

/-- What a name says within its directory. -/
def lastPart (name : Text) : Text := name.drop (upToSlash name).length

end FileName

end SchemaInference
