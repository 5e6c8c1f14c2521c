import SchemaInference.Batch
import SchemaInference.Text.Blank

/-!
# Message files

A file that holds one JSON document gives one message, or one for each element if the
document is an array.  Any other file is read line by line; a line that is no JSON is
kept as text, so that it is counted as a message without a schema.  Text that is JSON
beyond what can be read stops the loading of the file.
-/

namespace SchemaInference.MessageFile

/-- The messages of a file that holds one document. -/
def ofDocument : Json → List Message
  | .array elements => elements.map Message.ofJson
  | v => [Message.ofJson v]

def ofLine (line : Text) : Except Json.ReadError Message :=
  match Json.read line with
  | .ok v => .ok (Message.ofJson v)
  | .error e => if e.isMalformed then .ok (.text line) else .error e

/-- The lines of a text without the blanks around them, less those that are blank. -/
def filledLines (t : Text) : List Text :=
  (t.lines.map Text.strip).filter fun line => !line.isEmpty

/-- The messages of a file that holds the given text. -/
def messages (t : Text) : Except Json.ReadError (List Message) :=
  let content := t.strip
  if content.isEmpty then .ok []
  else match Json.read content with
    | .ok v => .ok (ofDocument v)
    | .error e => if e.isMalformed then (filledLines content).mapM ofLine else .error e

end SchemaInference.MessageFile
