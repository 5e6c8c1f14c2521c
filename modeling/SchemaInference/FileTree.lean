import SchemaInference.FileName
import SchemaInference.Keyed

/-!
# File trees

The files and directories of a system as a value.  A name is followed part by part:
empty parts and single dots stay where they are, double dots lead to the directory
above, and every other part must name something in the directory that has been reached.
Writing a file first makes the directories above it that are not there.
-/

namespace SchemaInference

/-- The names on the way from the root, outermost first. -/
abbrev Path := List (List UInt8)

inductive Node where
  | directory
  | file (octets : List UInt8)
  /-- A file that stays empty whatever is written to it. -/
  | sink
  deriving DecidableEq, Repr

/-- Everything below the root, with the directory from which names lead on their own. -/
structure FileTree where
  nodes : List (Path × Node)
  working : Path
  deriving DecidableEq, Repr

namespace FileTree

def slash : UInt8 := 0x2F

/-- The part that stays where it is. -/
def dot : List UInt8 := [0x2E]

/-- The part that leads to the directory above. -/
def dots : List UInt8 := [0x2E, 0x2E]

/-- The most octets that a part of a name may have. -/
def partLimit : Nat := 255

/-- The most octets that a name may have. -/
def nameLimit : Nat := 4095

def node? (tree : FileTree) : Path → Option Node
  | [] => some .directory
  | path => Keyed.get? path tree.nodes

def put (tree : FileTree) (path : Path) (node : Node) : FileTree :=
  { tree with nodes := Keyed.put path node tree.nodes }

def parts : List UInt8 → Path
  | [] => [[]]
  | b :: rest =>
    if b = slash then [] :: parts rest
    else match parts rest with
      | [] => [[b]]
      | part :: others => (b :: part) :: others

def requireDirectory (tree : FileTree) (path : Path) : Except FileFault Unit :=
  match tree.node? path with
  | none => .error .missing
  | some .directory => .ok ()
  | some _ => .error .notDirectory

/-- The path to which parts lead from the path `here`. -/
def walk (tree : FileTree) (here : Path) : Path → Except FileFault Path
  | [] => .ok here
  | part :: rest => do
    tree.requireDirectory here
    if part = [] || part = dot then tree.walk here rest
    else if part = dots then tree.walk here.dropLast rest
    else if partLimit < part.length then throw .longName
    else if (tree.node? (here ++ [part])).isNone then throw .missing
    else tree.walk (here ++ [part]) rest

/-- The path from which the parts of a name lead. -/
def origin (tree : FileTree) (name : List UInt8) : Path :=
  if name.head? = some slash then [] else tree.working

/-- Fails for names that lead nowhere on any system. -/
def requireName (name : List UInt8) : Except FileFault Unit :=
  if name.isEmpty then .error .missing
  else if nameLimit < name.length then .error .longName
  else .ok ()

def resolve (tree : FileTree) (name : List UInt8) : Except FileFault Path := do
  requireName name
  tree.walk (tree.origin name) (parts name)

def contents (tree : FileTree) (path : Path) : Except FileFault (List UInt8) :=
  match tree.node? path with
  | none => .error .missing
  | some .directory => .error .isDirectory
  | some (.file octets) => .ok octets
  | some .sink => .ok []

/-- What is said about the octets of a name, with the name itself in every fault. -/
def onName {α : Type} (name : Text) (f : List UInt8 → Except FileFault α) : Except FileError α := do
  let octets ← FileName.encode name
  (f octets).mapError (.named · name)

def read (tree : FileTree) (name : Text) : Except FileError (List UInt8) :=
  onName name fun octets => do tree.contents (← tree.resolve octets)

def has (tree : FileTree) (name : Text) : Bool := (onName name tree.resolve).toBool

/--
The path at which a new entry called `name` would stand.  `taken` is the fault of a name
that ends in dots or leads to the root, and so cannot be given to anything.
-/
def place (tree : FileTree) (taken : FileFault) (name : List UInt8) : Except FileFault Path := do
  requireName name
  match (parts name).reverse.dropWhile List.isEmpty with
  | [] => throw taken
  | last :: above =>
    let parent ← tree.walk (tree.origin name) above.reverse
    tree.requireDirectory parent
    if last = dot || last = dots then throw taken
    else if partLimit < last.length then throw .longName
    else return parent ++ [last]

def makeDirectory (tree : FileTree) (name : Text) : Except FileError FileTree :=
  onName name fun octets => do
    let path ← tree.place .present octets
    if (tree.node? path).isSome then throw .present
    return tree.put path .directory

/-- The tree after octets are written to the file at a path. -/
def overwrite (tree : FileTree) (path : Path) (octets : List UInt8) : Except FileFault FileTree :=
  match tree.node? path with
  | some .directory => .error .isDirectory
  | some .sink => .ok tree
  | some (.file _) | none => .ok (tree.put path (.file octets))

/-- Writes a file into a directory that is there. -/
def writeFile (tree : FileTree) (name : Text) (octets : List UInt8) : Except FileError FileTree :=
  onName name fun spelled => do
    let path ← tree.place .isDirectory spelled
    if spelled.getLast? = some slash then throw .isDirectory
    tree.overwrite path octets

/-- The directory called `name` and those above it, from the outermost one that is not there. -/
def absentDirectories (tree : FileTree) (name : Text) : List Text :=
  let above := FileName.directory name
  if _shorter : above.length < name.length then
    if above.isEmpty || tree.has above then [name] else tree.absentDirectories above ++ [name]
  else [name]
termination_by name.length

/-- Makes a directory, unless its name ends in a dot and so leads to one that was made before. -/
def makeNext (tree : FileTree) (name : Text) : Except FileError FileTree :=
  if FileName.lastPart name = "." then .ok tree else tree.makeDirectory name

/-- The tree that is gone on with after a directory was made, which may be there already. -/
def unlessPresent (tree : FileTree) : Except FileError FileTree → Except FileError FileTree
  | .error (.named .present _) => .ok tree
  | made => made

/-- Makes directories inside one that has been made; all but the last may be there. -/
def makeInside (tree : FileTree) (made : Except FileError FileTree) :
    List Text → Except FileError FileTree
  | [] => made
  | name :: rest => do
    let next ← tree.unlessPresent made
    next.makeInside (next.makeNext name) rest

/-- Makes directories one after the other, each of which stands in the one before. -/
def makeDirectories (tree : FileTree) : List Text → Except FileError FileTree
  | [] => .ok tree
  | outermost :: rest => tree.makeInside (tree.makeDirectory outermost) rest

/-- Writes a file, and makes the directories above it that are not there. -/
def write (tree : FileTree) (name : Text) (octets : List UInt8) : Except FileError FileTree := do
  let directory := FileName.directory name
  let grown ←
    if directory.isEmpty || tree.has directory then .ok tree
    else tree.makeDirectories (tree.absentDirectories directory)
  grown.writeFile name octets

end FileTree

end SchemaInference
