import SchemaInference.FileTree
import SchemaInference.MessageFile

/-!
# Jobs

Inferring a schema from the document in a file, and ranked schemas from files of
messages.  Files are read through a host, which answers for every name, as a file tree
does; the text that a job would write is its result.
-/

namespace SchemaInference

/-- What a job sees of the system it runs on. -/
structure Host where
  /-- The octets of a file. -/
  read : Text → Except FileError (List UInt8)
  /-- What keeps a file from being written. -/
  writeError : Text → Option FileError

/-- The system whose files are those of a tree. -/
def FileTree.host (tree : FileTree) : Host where
  read := tree.read
  writeError name :=
    match tree.write name [] with
    | .ok _ => none
    | .error error => some error

inductive JobError where
  | file (error : FileError)
  | octets (error : Encoding.DecodeError)
  | text (error : Json.ReadError)
  | noInputs
  | noMessages
  | failure (failure : Located Failure)

def JobError.message : JobError → Text
  | .file error => error.message
  | .octets error => error.message
  | .text error => error.message
  | .noInputs => "At least one input file is required"
  | .noMessages => "No messages found in input files"
  | .failure f => f.describe Failure.message

namespace Host

/-- The text of a file, with its line ends normalised. -/
def readText (host : Host) (name : Text) : Except JobError Text := do
  let octets ← (host.read name).mapError .file
  let t ← (Encoding.decodeFile octets).mapError .octets
  return t.normalizeLineEnds

def readDocument (host : Host) (name : Text) : Except JobError Json := do
  let t ← host.readText name
  (Json.read t).mapError .text

/-- The messages in files, one file after the other. -/
def readMessages (host : Host) : List Text → Except JobError (List Message)
  | [] => .ok []
  | name :: rest => do
    let t ← host.readText name
    let first ← (MessageFile.messages t).mapError .text
    let others ← host.readMessages rest
    return first ++ others

/-- Passes a text on if a file can be written under a name. -/
def write (host : Host) (name text : Text) : Except JobError Text :=
  match host.writeError name with
  | none => .ok text
  | some error => .error (.file error)

end Host

/-- The name of the root record of a document, unless another one is given. -/
def documentName : Text := "record"

/-- The given name of a root record, or the usual one if it is missing or empty. -/
def documentNameOr : Option Text → Text
  | none | some [] => documentName
  | some name => name

/-- The text of the schema of the document in a file. -/
def documentJob (host : Host) (mode : Mode) (name : Option Text) (input : Text) :
    Except JobError Text := do
  let v ← host.readDocument input
  let schema ← (inferDocument { mode } (documentNameOr name) v).mapError .failure
  return schema.toJson.indented

/-- The text of the ranked schemas of the messages in files. -/
def messagesJob (host : Host) (mode : Mode) (limit : Option Int) (inputs : List Text) :
    Except JobError Text := do
  if inputs.isEmpty then throw .noInputs
  let found ← host.readMessages inputs
  if found.isEmpty then throw .noMessages
  let entries ← (inferBatch { mode } messageName limit found).mapError .failure
  return (Json.array (entries.map Entry.toJson)).indented

end SchemaInference
