import SchemaInference.Text.Integer

/-!
# Command line arguments

Arguments are told apart before any is used.  An option is given by its name or, if
it is long, by a beginning of its name that fits no other option; behind an equals
sign may stand its value.  A double dash ends the options; behind an equals sign it
gives the option without a value.  An argument that only
looks like an option is an operand if it is a negative number or contains a space.
-/

namespace SchemaInference.CommandLine

/-- Why the arguments are not used: they are wrong, or help is asked for. -/
inductive Stop where
  | usage
  | help
  deriving DecidableEq, Repr

/-- An option with its names, which all start with a dash. -/
structure OptionRule where
  names : List Text
  takesValue : Bool
  deriving DecidableEq, Repr

/-- The name by which an option is recorded. -/
def OptionRule.name (rule : OptionRule) : Text := rule.names.getLastD []

def helpRule : OptionRule := ⟨["-h", "--help"], false⟩

inductive Argument where
  | operand (text : Text)
  /-- The double dash that ends the options. -/
  | terminator
  /-- A long option, with the value attached to it by an equals sign. -/
  | known (rule : OptionRule) (attached : Option Text)
  /-- An option by its letter, with the text behind the letter and a possible equals sign. -/
  | letters (rule : OptionRule) (others : Text)
  | unknown
  deriving DecidableEq, Repr

/-- A text up to its first equals sign, and the text after that sign if there is one. -/
def splitEquals (t : Text) : Text × Option Text :=
  match t.dropWhile (· ≠ .char '=') with
  | [] => (t, none)
  | _ :: value => (t.takeWhile (· ≠ .char '='), some value)

def findRule (rules : List OptionRule) (name : Text) : Option OptionRule :=
  rules.find? fun rule => rule.names.contains name

/-- The long options whose names begin with the given text. -/
def completions (rules : List OptionRule) (t : Text) : List OptionRule :=
  rules.flatMap fun rule => (rule.names.filter fun name => t.isPrefixOf name).map fun _ => rule

/-- The options that an argument with dashes can stand for, none of them by its full name. -/
def candidates (rules : List OptionRule) (arg : Text) : List Argument :=
  match arg with
  | .char '-' :: .char '-' :: _ =>
    let (stem, value) := splitEquals arg
    (completions rules stem).map fun rule => .known rule value
  | .char '-' :: letter :: others =>
    match findRule rules ['-', letter] with
    | some rule => [.letters rule others]
    | none => []
  | _ => []

/-- What an argument is that is no operand for its first character and no option by name. -/
def classifyOther (rules : List OptionRule) (arg : Text) : Except Stop Argument :=
  match candidates rules arg with
  | [argument] => .ok argument
  | _ :: _ :: _ => .error .usage
  | [] =>
    if arg.isNegativeNumber || arg.contains (.char ' ') then .ok (.operand arg)
    else .ok .unknown

/-- An option called `name` with the text behind an equals sign. -/
def withAttached (rule : OptionRule) (name value : Text) : Argument :=
  if name.length = 2 then .letters rule value else .known rule (some value)

/-- What an argument is that is not behind a double dash. -/
def classifyArgument (rules : List OptionRule) (arg : Text) : Except Stop Argument :=
  if arg = "--" then .ok .terminator
  else if arg.head? ≠ some (.char '-') || arg = "-" then .ok (.operand arg)
  else match findRule rules arg with
    | some rule => .ok (.known rule none)
    | none =>
      match splitEquals arg with
      | (stem, some value) =>
        match findRule rules stem with
        | some rule => .ok (withAttached rule stem value)
        | none => classifyOther rules arg
      | (_, none) => classifyOther rules arg

def classifyArguments (rules : List OptionRule) : List Text → Except Stop (List Argument)
  | [] => .ok []
  | arg :: rest => do
    let first ← classifyArgument rules arg
    let others ← if first = .terminator then .ok (rest.map .operand)
      else classifyArguments rules rest
    return first :: others

/-- What the letter of the help option asks for with others behind it: help, if all say so. -/
def helpLetters (others : Text) : Stop :=
  if !others.isEmpty && others.all (· = .char 'h') then .help else .usage

structure Given where
  /-- The options without a value, by name. -/
  flags : List Text := []
  /-- The options that take a value, by name, the last one first; the value may be missing. -/
  values : List (Text × Option Text) := []
  operand : Option Text := none
  /-- Whether the place of the operand is taken. -/
  operandTaken : Bool := false
  /-- Whether there are arguments for which there is no place. -/
  excess : Bool := false
  deriving DecidableEq, Repr

namespace Given

/-- Whether an option without a value was given. -/
def has (g : Given) (rule : OptionRule) : Bool := g.flags.contains rule.name

/-- How an option was given last: with a value or without. -/
def value? (g : Given) (rule : OptionRule) : Option (Option Text) := g.values.lookup rule.name

def setFlag (g : Given) (rule : OptionRule) : Given := { g with flags := rule.name :: g.flags }

def setValue (g : Given) (rule : OptionRule) (value : Option Text) : Given :=
  { g with values := (rule.name, value) :: g.values }

def setOperand (g : Given) (text : Text) : Given :=
  { g with operand := some text, operandTaken := true }

def leave (g : Given) (rest : List Argument) : Given :=
  { g with excess := g.excess || !rest.isEmpty }

end Given

/--
Takes the arguments of a command that has one optional operand, which may stand before
or behind a double dash.  `accepts` tells whether a value suits its option.
-/
def takeArguments (accepts : OptionRule → Text → Bool) (g : Given) :
    List Argument → Except Stop Given
  | [] => .ok g
  | .known rule none :: rest =>
    if rule.takesValue then
      match rest with
      | .operand value :: rest =>
        if accepts rule value then takeArguments accepts (g.setValue rule (some value)) rest
        else .error .usage
      | _ => .error .usage
    else if rule = helpRule then .error .help
    else takeArguments accepts (g.setFlag rule) rest
  | .known rule (some value) :: rest =>
    if !rule.takesValue then .error .usage
    else if value = "--" then takeArguments accepts (g.setValue rule none) rest
    else if accepts rule value then takeArguments accepts (g.setValue rule (some value)) rest
    else .error .usage
  | .letters _ others :: _ => .error (helpLetters others)
  | .unknown :: rest => takeArguments accepts { g with excess := true } rest
  | .terminator :: rest =>
    if g.operandTaken then .ok { g with excess := true }
    else match rest with
      | .operand text :: rest => .ok ((g.setOperand text).leave rest)
      | rest => .ok (g.leave rest)
  | .operand text :: rest =>
    if g.operandTaken then takeArguments accepts { g with excess := true } rest
    else match rest with
      | .terminator :: rest => .ok ((g.setOperand text).leave rest)
      | rest => takeArguments accepts (g.setOperand text) rest

end SchemaInference.CommandLine
