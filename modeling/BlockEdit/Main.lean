import BlockEdit.Command.Run

/-!
# The program

The system as a host, and the command line that runs on it.
-/

namespace BlockEdit

/-- Why reading failed, told from what stands at the path and whether the bytes are a text. -/
def readFaultOf (kind : Option FileKind) : ReadFault :=
  match kind with
  | none => .notFound
  | some .directory => .isDirectory
  | some .file => .notText

/-- What stands at a path of the system. -/
def systemKind (path : Text) : IO (Option FileKind) := do
  let place := (← IO.currentDir) / String.ofList path
  if ← place.isDir then return some .directory
  else if ← place.pathExists then return some .file
  else return none

/-- The text of a file of the system. -/
def systemRead (path : Text) : IO (Except ReadFault Text) := do
  let kind ← systemKind path
  match kind with
  | some .file =>
    let bytes ← IO.FS.readBinFile (String.ofList path)
    match String.fromUTF8? bytes with
    | some text => return .ok text.toList
    | none => return .error (readFaultOf kind)
  | _ => return .error (readFaultOf kind)

/-- The files of a directory of the system and of the directories inside of it, so many levels
deep, each with the names on the way to it. -/
def systemFilesBelow : (levels : Nat) → (path : Text) → IO (List (List Text))
  | 0, _ => return []
  | levels + 1, path => do
    let entries ← ((← IO.currentDir) / String.ofList path).readDir
    let found ← entries.toList.mapM fun entry => do
      let name := entry.fileName.toList
      let inner := path ++ '/' :: name
      if ← entry.path.isDir then
        return (← systemFilesBelow levels inner).map (name :: ·)
      else return [[name]]
    return found.flatten

/-- The system as a host. -/
def systemHost : Host IO where
  kind := systemKind
  read := systemRead
  write path text := IO.FS.writeFile (String.ofList path) (String.ofList text)
  filesBelow := systemFilesBelow 256
  print text := do (← IO.getStdout).putStr (String.ofList text)
  complain text := do (← IO.getStderr).putStr (String.ofList text)

end BlockEdit

/-- Runs the command line. -/
def main (args : List String) : IO UInt32 := do
  let outcome ← BlockEdit.Command.run BlockEdit.systemHost (args.map String.toList)
  match outcome with
  | .failed reason => (← IO.getStderr).putStrLn ("Error: " ++ String.ofList reason)
  | .misused => (← IO.getStderr).putStrLn "hitedit: bad arguments (see hitedit --help)"
  | .done => pure ()
  return outcome.exitCode.toUInt32
