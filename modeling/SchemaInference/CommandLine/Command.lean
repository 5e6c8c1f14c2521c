import SchemaInference.CommandLine.Arguments

/-!
# Commands

The commands of the program, their options, and the pages of help.
-/

namespace SchemaInference.CommandLine

inductive Command where
  | derive
  | deriveMulti
  deriving DecidableEq, Repr

def versionRule : OptionRule := ⟨["--version"], false⟩

def verboseRule : OptionRule := ⟨["--verbose"], false⟩

def outRule : OptionRule := ⟨["--out"], true⟩

def typeNameRule : OptionRule := ⟨["--type-name"], true⟩

def maxSchemasRule : OptionRule := ⟨["--max-schemas"], true⟩

def lenientRule : OptionRule := ⟨["--lenient"], false⟩

/-- The options that may stand before a command. -/
def globalRules : List OptionRule := [helpRule, versionRule, verboseRule]

namespace Command

def name : Command → Text
  | derive => "derive"
  | deriveMulti => "derive-multi"

def description : Command → Text
  | derive => "Derive an Avro schema from a single JSON document"
  | deriveMulti => "Derive ranked Avro schemas from a file of JSON messages"

def ofName? (name : Text) : Option Command :=
  [derive, deriveMulti].find? fun c => c.name = name

def rules : Command → List OptionRule
  | derive => [helpRule, outRule, typeNameRule, lenientRule]
  | deriveMulti => [helpRule, outRule, maxSchemasRule, lenientRule]

/-- Whether a value suits an option: the limit on the number of schemas is an integer. -/
def accepts (rule : OptionRule) (value : Text) : Bool :=
  rule ≠ maxSchemasRule || value.integer?.isSome

end Command

/-! ## Help -/

def versionLine : String := "avroderive 0.1.0\n"

def programHelp : String :=
  "usage: avroderive [-h] [--version] [--verbose] \x7bderive,derive-multi\x7d ...\n" ++
  "\n" ++
  "Derive Avro schemas from sample JSON messages.\n" ++
  "\n" ++
  "positional arguments:\n" ++
  "  \x7bderive,derive-multi\x7d\n" ++
  "    derive              Derive an Avro schema from a single JSON document\n" ++
  "    derive-multi        Derive ranked Avro schemas from a file of JSON\n" ++
  "                        messages\n" ++
  "\n" ++
  "options:\n" ++
  "  -h, --help            show this help message and exit\n" ++
  "  --version             Print the version of avroderive.\n" ++
  "  --verbose             Log progress to stderr.\n"

def Command.help : Command → String
  | derive =>
    "usage: avroderive derive [-h] [--out OUT] [--type-name TYPE_NAME] [--lenient]\n" ++
    "                         [input]\n" ++
    "\n" ++
    "positional arguments:\n" ++
    "  input                 Path of the JSON document (stdin if omitted)\n" ++
    "\n" ++
    "options:\n" ++
    "  -h, --help            show this help message and exit\n" ++
    "  --out OUT             Output path for the Avro schema (stdout if omitted)\n" ++
    "  --type-name TYPE_NAME\n" ++
    "                        Name of the top-level record\n" ++
    "  --lenient             Widen conflicting types by majority instead of failing\n"
  | deriveMulti =>
    "usage: avroderive derive-multi [-h] [--out OUT] [--max-schemas MAX_SCHEMAS]\n" ++
    "                               [--lenient]\n" ++
    "                               [input]\n" ++
    "\n" ++
    "positional arguments:\n" ++
    "  input                 Path of the message file, a JSON array or JSON Lines\n" ++
    "                        (stdin if omitted)\n" ++
    "\n" ++
    "options:\n" ++
    "  -h, --help            show this help message and exit\n" ++
    "  --out OUT             Output path for the schema entries (stdout if omitted)\n" ++
    "  --max-schemas MAX_SCHEMAS\n" ++
    "                        Number of ranked schemas returned in strict mode\n" ++
    "  --lenient             Return one best-effort schema instead of the distinct\n" ++
    "                        shapes\n"

end SchemaInference.CommandLine
