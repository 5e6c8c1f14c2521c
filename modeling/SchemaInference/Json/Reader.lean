import SchemaInference.Json.Token
import SchemaInference.Keyed

/-!
# Reading JSON

A reading takes a text token by token and holds the containers that are still open.
`Reading.step` is the grammar: it gives the reading after one token, or the cause for
which that token cannot stand there.  The first such token ends the reading, so the
leftmost fault of a text is the one that is reported.  Containers nest at most
`nestingLimit` deep.
-/

namespace SchemaInference.Json

inductive Container where
  | array
  | object
  deriving DecidableEq, Repr

inductive Cause where
  /-- The form is wrong at some distance from the start of the token. -/
  | complaint (complaint : Complaint) (offset : Nat)
  | overlong (digits : Nat)
  | tooDeep (container : Container)
  deriving DecidableEq, Repr

/-- A container that is open around the value being read. -/
inductive Frame where
  /-- An array with the elements before the value, the last one first. -/
  | array (before : List Json)
  /-- An object with the members before the value, and the name of the value. -/
  | object (before : List (Text × Json)) (name : Text)

/-- What is read next. -/
inductive Stage where
  | value
  | firstElement
  | firstName
  | name (before : List (Text × Json))
  | colon (before : List (Text × Json)) (name : Text)
  /-- A value is complete, and what follows belongs to the container around it. -/
  | complete (value : Json)

/-- The state of a reading: the open containers, innermost first, and what is read next. -/
structure Reading where
  frames : List Frame
  stage : Stage

namespace Reading

/-- The number of containers that may be open at once. -/
def nestingLimit : Nat := 1000

def start : Reading := ⟨[], .value⟩

def enter (container : Container) (frames : List Frame) (next : Reading) :
    Except Cause Reading :=
  if frames.length < nestingLimit then .ok next else .error (.tooDeep container)

def beginValue (frames : List Frame) : Token → Except Cause Reading
  | .openArray => enter .array frames ⟨.array [] :: frames, .firstElement⟩
  | .openObject => enter .object frames ⟨frames, .firstName⟩
  | .word s => .ok ⟨frames, .complete (.scalar s)⟩
  | .text s => .ok ⟨frames, .complete (.string s)⟩
  | .overlong digits => .error (.overlong digits)
  | .broken complaint offset => .error (.complaint complaint offset)
  | _ => .error (.complaint .missingValue 0)

def beginMember (frames : List Frame) (before : List (Text × Json)) :
    Token → Except Cause Reading
  | .text s => .ok ⟨frames, .colon before s⟩
  | .broken complaint offset => .error (.complaint complaint offset)
  | _ => .error (.complaint .missingName 0)

def afterValue (v : Json) : List Frame → Token → Except Cause Reading
  | [], _ => .error (.complaint .extraData 0)
  | .array before :: frames, token =>
    match token with
    | .comma => .ok ⟨.array (v :: before) :: frames, .value⟩
    | .closeArray => .ok ⟨frames, .complete (.array (v :: before).reverse)⟩
    | _ => .error (.complaint .missingComma 0)
  | .object before name :: frames, token =>
    match token with
    | .comma => .ok ⟨frames, .name (Keyed.put name v before)⟩
    | .closeObject => .ok ⟨frames, .complete (.object (Keyed.put name v before))⟩
    | _ => .error (.complaint .missingComma 0)

def step (r : Reading) (token : Token) : Except Cause Reading :=
  match r.stage with
  | .value => beginValue r.frames token
  | .firstElement =>
    match token, r.frames with
    | .closeArray, _ :: frames => .ok ⟨frames, .complete (.array [])⟩
    | _, _ => beginValue r.frames token
  | .firstName =>
    match token with
    | .closeObject => .ok ⟨r.frames, .complete (.object [])⟩
    | _ => beginMember r.frames [] token
  | .name before => beginMember r.frames before token
  | .colon before name =>
    match token with
    | .colon => .ok ⟨.object before name :: r.frames, .value⟩
    | _ => .error (.complaint .missingColon 0)
  | .complete v => afterValue v r.frames token

def finish (r : Reading) : Except Cause Json :=
  match r.stage, r.frames with
  | .complete v, [] => .ok v
  | .complete _, _ :: _ => .error (.complaint .missingComma 0)
  | .value, _ | .firstElement, _ => .error (.complaint .missingValue 0)
  | .firstName, _ | .name _, _ => .error (.complaint .missingName 0)
  | .colon _ _, _ => .error (.complaint .missingColon 0)

end Reading

/-- A cause with the number of tokens that were left, the offending one among them. -/
structure Fault where
  cause : Cause
  unread : Nat
  deriving DecidableEq, Repr

/-- Takes tokens up to the first that cannot be taken. -/
def Reading.run (r : Reading) : List Token → Except Fault Reading
  | [] => .ok r
  | token :: rest =>
    match r.step token with
    | .ok next => next.run rest
    | .error cause => .error ⟨cause, rest.length + 1⟩

def parse (ts : List Token) : Except Fault Json :=
  match Reading.start.run ts with
  | .error fault => .error fault
  | .ok r =>
    match r.finish with
    | .ok v => .ok v
    | .error cause => .error ⟨cause, 0⟩

/-- A place in a text, counted in code points from zero, and in lines and columns from one. -/
structure Place where
  position : Nat
  line : Nat
  column : Nat
  deriving DecidableEq, Repr

/-- The place before which `position` code points stand. -/
def Place.of (t : Text) (position : Nat) : Place :=
  let before := t.take position
  { position
    line := before.count (.char '\n') + 1
    column := (before.reverse.takeWhile (· ≠ .char '\n')).length + 1 }

inductive ReadError where
  | malformed (complaint : Complaint) (place : Place)
  | overlong (digits : Nat)
  | tooDeep (container : Container)
  deriving DecidableEq, Repr

/-- Whether the text is no JSON at all, rather than JSON beyond what is read. -/
def ReadError.isMalformed : ReadError → Bool
  | .malformed .. => true
  | _ => false

/-- The error of a fault in the text `t` with the lexemes `ls`. -/
def ReadError.ofFault (t : Text) (ls : List Lexeme) (fault : Fault) : ReadError :=
  match fault.cause with
  | .overlong digits => .overlong digits
  | .tooDeep container => .tooDeep container
  | .complaint complaint offset =>
    let start := match ls.drop (ls.length - fault.unread) with
      | [] => t.length
      | l :: _ => l.start
    .malformed complaint (Place.of t (start + offset))

/-- Reads a text that has been decoded from octets. -/
def readDecoded (t : Text) : Except ReadError Json :=
  let ls := lexemes 0 t
  match parse (ls.map Lexeme.token) with
  | .ok v => .ok v
  | .error fault => .error (.ofFault t ls fault)

/-- Reads a text, which must not start with a byte order mark. -/
def read (t : Text) : Except ReadError Json :=
  match t with
  | .char '\uFEFF' :: _ => .error (.malformed .byteOrderMark ⟨0, 1, 1⟩)
  | t => readDecoded t

def Complaint.message : Complaint → String
  | .missingValue => "Expecting value"
  | .missingName => "Expecting property name enclosed in double quotes"
  | .missingColon => "Expecting ':' delimiter"
  | .missingComma => "Expecting ',' delimiter"
  | .extraData => "Extra data"
  | .byteOrderMark => "Unexpected UTF-8 BOM (decode using utf-8-sig)"
  | .unterminatedString => "Unterminated string starting at"
  | .controlCharacter => "Invalid control character at"
  | .unknownEscape => "Invalid \\escape"
  | .badCodeUnit => "Invalid \\uXXXX escape"

def Place.text (p : Place) : String :=
  s!"line {p.line} column {p.column} (char {p.position})"

def Container.text : Container → String
  | .array => "array"
  | .object => "object"

def ReadError.message : ReadError → String
  | .malformed complaint place => complaint.message ++ ": " ++ place.text
  | .overlong digits =>
    s!"Exceeds the limit ({digitLimit} digits) for integer string conversion: "
      ++ s!"value has {digits} digits; use sys.set_int_max_str_digits() to increase the limit"
  | .tooDeep container =>
    "maximum recursion depth exceeded while decoding a JSON " ++ container.text
      ++ " from a unicode string"

end SchemaInference.Json
