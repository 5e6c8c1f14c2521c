import SchemaInference.CommandLine.Program

/-!
# Entry point

Runs the program on the arguments it is started with: reads the one file that a task
needs, carries the request out, prints, and writes the output file.
-/

namespace SchemaInference.CommandLine

/-- The number by which a system reports that a directory stands where a file is wanted. -/
def directoryCode : UInt32 := 21

/-- The fault that stands for an error of the file system. -/
def faultOf : IO.Error → FileFault
  | .alreadyExists .. => .present
  | .inappropriateType _ code _ => if code = directoryCode then .isDirectory else .notDirectory
  | .invalidArgument .. => .longName
  | _ => .missing

/-- What an action on a file gives, which is not tried if nothing can have the name. -/
def onFile {α : Type} (name : Text) (action : String → IO α) : IO (Except FileError α) := do
  match FileName.encode name with
  | .error error => return .error error
  | .ok _ =>
    try return .ok (← action name.toString)
    catch error => return .error (.named (faultOf error) name)

def readOctets (name : Text) : IO (Except FileError (List UInt8)) :=
  onFile name fun path => do return (← IO.FS.readBinFile path).toList

/-- Writes a file, with the directory in which it stands. -/
def writeText (name text : Text) : IO (Except FileError Unit) :=
  onFile name fun path => do
    let directory := FileName.directory name
    unless directory.isEmpty do IO.FS.createDirAll directory.toString
    IO.FS.writeFile path text.toString

/-- The host whose only file has been read already, and on which writing is tried later. -/
def hostWith (content : Except FileError (List UInt8)) : Host where
  read _ := content
  writeError _ := none

end SchemaInference.CommandLine

open SchemaInference SchemaInference.CommandLine in
def main (args : List String) : IO UInt32 := do
  let request := readRequest (args.map Text.ofString)
  let content ← match request with
    | .task task => readOctets task.input
    | _ => pure (.ok [])
  let response := request.run (hostWith content)
  IO.print response.printed.toString
  match response.written with
  | none => return response.exitCode.toUInt32
  | some (name, text) =>
    match ← writeText name text with
    | .ok () => return response.exitCode.toUInt32
    | .error error =>
      IO.print (errorLine (.job (.file error))).toString
      return 1
