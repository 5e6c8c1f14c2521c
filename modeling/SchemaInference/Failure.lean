import SchemaInference.Disagreement
import SchemaInference.Json.Reader
import SchemaInference.Text.Encoding

/-!
# Failures

Why no schema is inferred.  A failure is reported with the path of the value that
caused it, as soon as that is known: a path that is set stays.
-/

namespace SchemaInference

/-- Something with the path at which it happened, once that is known. -/
structure Located (α : Type) where
  cause : α
  path : Option Text
  deriving DecidableEq, Repr

namespace Located

variable {α : Type}

/-- Records a path unless a path that is not empty is recorded already. -/
def atPath (l : Located α) (path : Text) : Located α :=
  if (l.path.getD []).isEmpty then { l with path := some path } else l

/-- The wording of the cause, followed by the path if there is one. -/
def describe (message : α → Text) (l : Located α) : Text :=
  match l.path with
  | none | some [] => message l.cause
  | some path => message l.cause ++ " at " ++ path

end Located

inductive Unreadable where
  | octets (error : Encoding.DecodeError)
  | text (error : Json.ReadError)
  deriving DecidableEq, Repr

def Unreadable.message : Unreadable → String
  | .octets error => error.message
  | .text error => error.message

inductive Failure where
  | emptyRecordName
  | emptyFieldName
  | outOfRange (value : Int)
  | disagreement (reason : Disagreement)
  | tooDeep (limit : Int)
  | unreadable (reason : Unreadable)
  /-- A message of a batch nests deeper than can be read. -/
  | unreadablyDeep (index : Int)
  /-- None of the messages of a batch gave a schema. -/
  | nothingInferred (messages : Nat)

namespace Failure

inductive Category where
  | reading
  | naming
  | range
  | typing
  | field
  | depth
  | noMatch
  deriving DecidableEq, Repr

def category : Failure → Category
  | emptyRecordName | emptyFieldName => .naming
  | outOfRange _ => .range
  | disagreement reason => if reason.field?.isSome then .field else .typing
  | tooDeep _ | unreadablyDeep _ => .depth
  | unreadable _ => .reading
  | nothingInferred _ => .noMatch

/-- The field whose types do not agree, where that is the failure. -/
def field? : Failure → Option Text
  | disagreement reason => reason.field?
  | _ => none

def message : Failure → Text
  | emptyRecordName => "Record name must not be empty"
  | emptyFieldName => "Field name must not be empty"
  | outOfRange value => s!"Integer {value} exceeds the range of long"
  | disagreement reason => reason.message
  | tooDeep limit => s!"Document nests deeper than {limit} levels"
  | unreadable reason => "Invalid JSON: " ++ reason.message
  | unreadablyDeep index => s!"Message {index} nests too deeply to be parsed"
  | nothingInferred messages =>
    s!"No schema could be derived from any of the {messages} message(s)"

end Failure

end SchemaInference
