import SchemaInference.Inference
import SchemaInference.Keyed
import SchemaInference.Schema.Shape

/-!
# Batches of messages

The schema of every message is inferred on its own.  Messages whose schemas have the same
text form a group, and groups whose schemas differ only in the width of numeric kinds are
brought together.  Groups are ranked by size, and groups of one size by their first message.
A message without a schema belongs to no group and affects no other message.
-/

namespace SchemaInference

/-! ## Messages -/

/-- A message of a batch: text or octets yet to be read, or a value. -/
inductive Message where
  | text (text : Text)
  | octets (octets : List UInt8)
  | value (value : Json)

/-- A value as a message; a string is itself the text of a message. -/
def Message.ofJson : Json → Message
  | .scalar (.string s) => .text s
  | v => .value v

def Failure.ofReadError (index : Int) : Json.ReadError → Failure
  | .tooDeep _ => .unreadablyDeep index
  | error => .unreadable (.text error)

def Message.read (index : Int) : Message → Except Failure Json
  | .text s => (Json.read s).mapError (.ofReadError index)
  | .octets bytes => do
    let t ← (Encoding.decodeDocument bytes).mapError fun e => .unreadable (.octets e)
    (Json.readDecoded t).mapError (.ofReadError index)
  | .value v => .ok v

/-- What became of the message at `index`. -/
structure MessageOutcome where
  index : Int
  outcome : Except (Located Failure) Schema

def inferMessage (settings : Settings) (name : Text) (index : Int) (message : Message) :
    MessageOutcome :=
  { index
    outcome := do
      let v ← (message.read index).mapError (⟨·, none⟩)
      inferDocument settings name v }

/-- What becomes of messages, which are numbered from `index` on. -/
def inferMessages (settings : Settings) (name : Text) (index : Int) :
    List Message → List MessageOutcome
  | [] => []
  | message :: rest =>
    inferMessage settings name index message :: inferMessages settings name (index + 1) rest

/-! ## Groups -/

structure Match where
  index : Int
  schema : Schema

def MessageOutcome.match? (r : MessageOutcome) : Option Match :=
  match r.outcome with
  | .ok schema => some ⟨r.index, schema⟩
  | .error _ => none

structure Group where
  schema : Schema
  messages : List Int
  deriving DecidableEq

def ascending (ns : List Int) : List Int := ns.mergeSort fun a b => a ≤ b

def inOrder (found : List Match) : List Match :=
  found.mergeSort fun a b => a.index ≤ b.index

/-- Adds a match to the group of the text of its schema, or else puts a new group at the end. -/
def addMatch (groups : List (Text × Group)) (m : Match) : List (Text × Group) :=
  let text := m.schema.text
  match Keyed.get? text groups with
  | some g => Keyed.put text { g with messages := g.messages ++ [m.index] } groups
  | none => Keyed.put text ⟨m.schema, [m.index]⟩ groups

/-- The groups of matches whose schemas have one text, in the order of their first messages. -/
def exactGroups (found : List Match) : List Group := (found.foldl addMatch []).map Prod.snd

/-- The schema of two groups that differ only in numeric width. -/
def coalesce? (mode : Mode) (a b : Group) : Option Schema :=
  if a.schema.sameUpToWidth b.schema then (join mode a.schema b.schema).toOption else none

/-- Joins a group to the first group with which it coalesces, or else puts it at the end. -/
def addGroup (mode : Mode) (g : Group) : List Group → List Group
  | [] => [g]
  | present :: rest =>
    match coalesce? mode present g with
    | some widened => ⟨widened, ascending (present.messages ++ g.messages)⟩ :: rest
    | none => present :: addGroup mode g rest

/-- The groups of matches, in the order of their first messages. -/
def groupMatches (mode : Mode) (found : List Match) : List Group :=
  (exactGroups (inOrder found)).foldl (fun groups g => addGroup mode g groups) []

def groupOutcomes (mode : Mode) (results : List MessageOutcome) : List Group :=
  groupMatches mode (results.filterMap MessageOutcome.match?)

def Group.first (g : Group) : Int := g.messages.head?.getD 0

/-- Whether the group `a` may be ranked before the group `b`. -/
def Group.ranksBefore (a b : Group) : Bool :=
  b.messages.length < a.messages.length
    || (a.messages.length = b.messages.length && a.first ≤ b.first)

/-- Groups ranked by size, the largest first, and by first message where sizes are equal. -/
def ranking (groups : List Group) : List Group := groups.mergeSort Group.ranksBefore

/-! ## Entries -/

/-- A schema that is reported, with its messages if they are reported too. -/
structure Entry where
  schema : Schema
  messages : Option (List Int)
  deriving DecidableEq

def Group.entry (withMessages : Bool) (g : Group) : Entry :=
  ⟨g.schema, if withMessages then some g.messages else none⟩

def Entry.toJson (e : Entry) : Json :=
  match e.messages with
  | none => .object [("schema", e.schema.toJson)]
  | some messages =>
    .object [("schema", e.schema.toJson), ("messagesMatched", .array (messages.map .integer)),
      ("numMessagesMatched", .integer messages.length)]

def Entry.text (e : Entry) : Text := e.toJson.compact

/-- The first elements up to a limit; a negative limit counts from the end. -/
def upTo {α : Type} (limit : Option Int) (xs : List α) : List α :=
  match limit with
  | none => xs
  | some n => if 0 ≤ n then xs.take n.toNat else xs.take (xs.length - n.natAbs)

/-- The number of schemas that are reported unless said otherwise. -/
def defaultLimit : Option Int := some 3

def messageName : Text := "Record"

/-- The entries for ranked groups: up to `limit` of them, or the schema of the first if lenient. -/
def entriesOf (mode : Mode) (limit : Option Int) (ranked : List Group) : List Entry :=
  match mode with
  | .strict => (upTo limit ranked).map (Group.entry true)
  | .lenient => (ranked.take 1).map (Group.entry false)

def inferBatch (settings : Settings) (name : Text) (limit : Option Int)
    (messages : List Message) : Except (Located Failure) (List Entry) :=
  match ranking (groupOutcomes settings.mode (inferMessages settings name 0 messages)) with
  | [] => .error ⟨.nothingInferred messages.length, none⟩
  | ranked => .ok (entriesOf settings.mode limit ranked)

end SchemaInference
