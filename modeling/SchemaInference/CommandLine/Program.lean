import SchemaInference.CommandLine.Command
import SchemaInference.Job

/-!
# The program

What the program answers to its arguments: a request is read from them, and carrying
it out gives what is printed, the exit code, and the file that is written.
-/

namespace SchemaInference.CommandLine

structure Task where
  command : Command
  given : Given

inductive Request where
  | usage
  | help (page : String)
  | version
  | task (task : Task)

/-- What was given before the command, with the arguments from the command on. -/
structure Globals where
  version : Bool := false
  excess : Bool := false
  command : Option (Text × List Text) := none

/-- Takes the arguments up to the command, each with its text. -/
def takeGlobals (g : Globals) : List (Argument × Text) → Except Stop Globals
  | [] => .ok g
  | (.operand name, _) :: rest => .ok { g with command := some (name, rest.map Prod.snd) }
  | (.terminator, _) :: _ => .error .usage
  | (.known _ (some _), _) :: _ => .error .usage
  | (.letters _ others, _) :: _ => .error (helpLetters others)
  | (.known rule none, _) :: rest =>
    if rule = helpRule then .error .help
    else takeGlobals { g with version := g.version || rule = versionRule } rest
  | (.unknown, _) :: rest => takeGlobals { g with excess := true } rest

def readGlobals (args : List Text) : Except Stop Globals := do
  let classified ← classifyArguments globalRules args
  takeGlobals {} (classified.zip args)

def readCommand (command : Command) (args : List Text) : Except Stop Given := do
  let classified ← classifyArguments command.rules args
  takeArguments Command.accepts {} classified

/-- What is asked for when reading the arguments of a page's command ends early. -/
def Request.ofStop (page : String) : Stop → Request
  | .usage => .usage
  | .help => .help page

def readRequest (args : List Text) : Request :=
  match readGlobals args with
  | .error stop => .ofStop programHelp stop
  | .ok globals =>
    match globals.command with
    | none =>
      if globals.excess then .usage
      else if globals.version then .version
      else .help programHelp
    | some (name, rest) =>
      match Command.ofName? name with
      | none => .usage
      | some command =>
        match readCommand command rest with
        | .error stop => .ofStop command.help stop
        | .ok given =>
          if globals.excess || given.excess then .usage
          else if globals.version then .version
          else .task ⟨command, given⟩

/--
Why a task gives no output: its job fails, or an option that it needs was given without
a value.
-/
inductive TaskError where
  | job (error : JobError)
  | noLimit
  | noOutputName

def TaskError.message : TaskError → Text
  | .job error => error.message
  | .noLimit => "slice indices must be integers or None or have an __index__ method"
  | .noOutputName => "expected str, bytes or os.PathLike object, not list"

namespace Task

/-- The file that is read if no file is given. -/
def standardInput : Text := "/dev/stdin"

def input (task : Task) : Text := task.given.operand.getD standardInput

/-- How the file that is written is given, if it is. -/
def out? (task : Task) : Option (Option Text) := task.given.value? outRule

/-- The name of the root record, if one is given. -/
def typeName? (task : Task) : Option Text := (task.given.value? typeNameRule).join

def mode (task : Task) : Mode := if task.given.has lenientRule then .lenient else .strict

def limit (task : Task) : Option Int :=
  match task.given.value? maxSchemasRule with
  | some (some value) => value.integer?
  | _ => defaultLimit

/-- Whether the limit that is given is without a value, and is needed. -/
def lacksLimit (task : Task) : Bool :=
  task.given.value? maxSchemasRule = some none && task.mode = .strict

def result (task : Task) (host : Host) : Except TaskError Text :=
  match task.command with
  | .derive => (documentJob host task.mode task.typeName? task.input).mapError .job
  | .deriveMulti => do
    let text ← (messagesJob host task.mode task.limit [task.input]).mapError .job
    if task.lacksLimit then throw .noLimit
    return text

/-- The text that is written under the name of the output, or printed if none is given. -/
def output (task : Task) (host : Host) : Except TaskError Text := do
  let text ← task.result host
  match task.out? with
  | none => return text
  | some none => throw .noOutputName
  | some (some name) => (host.write name text).mapError .job

/-- The line that announces a task whose output is written to a file with a name. -/
def announcement (task : Task) : Text :=
  match task.out?.join with
  | none | some [] => []
  | some name =>
    "Executing " ++ task.command.description ++ " with input " ++ task.input ++ " and output "
      ++ name ++ "\n"

end Task

def errorLine (error : TaskError) : Text := "Error:  " ++ error.message ++ "\n"

/-- What the program does: what it prints, its exit code, and a file with its name and text. -/
structure Response where
  exitCode : Nat
  printed : Text
  written : Option (Text × Text)
  deriving DecidableEq, Repr

def Task.run (task : Task) (host : Host) : Response :=
  match task.output host with
  | .error error => ⟨1, task.announcement ++ errorLine error, none⟩
  | .ok text =>
    match task.out?.join with
    | none => ⟨0, task.announcement ++ text ++ "\n", none⟩
    | some name => ⟨0, task.announcement, some (name, text)⟩

def Request.run (host : Host) : Request → Response
  | .usage => ⟨2, [], none⟩
  | .help page => ⟨0, page, none⟩
  | .version => ⟨0, versionLine, none⟩
  | .task t => t.run host

end SchemaInference.CommandLine
