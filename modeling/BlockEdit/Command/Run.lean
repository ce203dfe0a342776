import BlockEdit.Command.Arguments
import BlockEdit.Command.Config
import BlockEdit.Schema.File

/-!
# Commands

What a command does is written for any `Host`. A command ends well, with a message why it failed,
or, as its arguments make no sense, without having done anything.
-/

namespace BlockEdit

/-- How a command ends. -/
inductive Outcome where
  /-- It did what it was asked for. -/
  | done
  /-- It failed, for this reason. -/
  | failed (reason : Text)
  /-- Its arguments make no sense. -/
  | misused
deriving DecidableEq, Repr

namespace Outcome

/-- The exit code of a program that ends like this. -/
def exitCode : Outcome → Nat
  | .done => 0
  | .failed _ => 1
  | .misused => 2

end Outcome

/-- The first line of the report about a fault. A token that the report names can go over several
lines. -/
def Fault.headline (f : Fault) : Text := Text.firstLine ("Error: ".toList ++ f.message)

/-- The report about a warning. -/
def Warning.report (w : Warning) : Text := "warning: ".toList ++ w.message ++ ['\n']

namespace Command

/-- The marks that a line of output can start with. -/
def goodMark : Text := ['✓']

/-- The mark of what is not in order. -/
def badMark : Text := ['✗']

/-- What every command needs to know: the configuration and the catalog. -/
structure Workspace where
  /-- The configuration. -/
  config : Config
  /-- The catalog; without one every block is read as one of texts. -/
  catalog : Catalog

/-! ## Input files -/

/-- Whether the name of a file is that of a document: it ends in `.i` and has something before
that. -/
def isInputName (name : Text) : Bool :=
  match name.reverse with
  | 'i' :: '.' :: _ :: _ => true
  | _ => false

/-- The path of a file below a directory. -/
def pathBelow (directory : Text) (names : List Text) : Text :=
  let relative := Text.joinWith ['/'] names
  if directory.getLast? = some '/' then directory ++ relative else directory ++ '/' :: relative

/-- Puts an item into a list of items sorted by their names. -/
def insertSorted (names : List Text) : List (List Text) → List (List Text)
  | [] => [names]
  | other :: rest => if names < other then names :: other :: rest else other :: insertSorted names rest

/-- The documents among the files of a directory, sorted by the names on the way to them. -/
def inputsOf (directory : Text) (found : List (List Text)) : List Text :=
  let inputs := found.filter fun names => (names.getLast?.map isInputName).getD false
  (inputs.foldl (fun sorted names => insertSorted names sorted) []).map (pathBelow directory)

variable {m : Type → Type} [Monad m]

/-- The files that paths stand for: a file for itself, a directory for the documents in it. -/
def collectInputs (host : Host m) : List Text → m (Except Text (List Text))
  | [] => return .ok []
  | path :: rest => do
    match ← host.kind path with
    | none => return .error ("Input path does not exist: ".toList ++ path)
    | some kind =>
      let own ← match kind with
        | .file => pure [path]
        | .directory => do pure (inputsOf path (← host.filesBelow path))
      return (← collectInputs host rest).map (own ++ ·)

/-! ## Configuration and catalog -/

/-- The configuration of the directory. -/
def loadConfig (host : Host m) : m (Except Text Config) := do
  match ← host.kind Config.fileName with
  | none => return .ok {}
  | some _ =>
    match ← host.read Config.fileName with
    | .error fault => return .error fault.message
    | .ok text =>
      match Config.ofText? text with
      | some config => return .ok config
      | none => return .error "invalid configuration".toList

/-- The configuration and the catalog; the command line can name another catalog. -/
def loadWorkspace (host : Host m) (schema : Option Text) : m (Except Text Workspace) := do
  match ← loadConfig host with
  | .error reason => return .error reason
  | .ok config =>
    match schema.or config.schema with
    | none => return .ok ⟨config, Catalog.empty⟩
    | some file =>
      match ← Catalog.ofFile host file with
      | .error reason => return .error reason.message
      | .ok catalog => return .ok ⟨config, catalog⟩

/-- Why the document of a file cannot be had. -/
inductive InputFault where
  /-- The file cannot be read. -/
  | read (fault : ReadFault)
  /-- The text is no document. -/
  | parse (fault : Fault)

/-- The text and the tree of a file. A fault of the text is reported at once. -/
def parseFile (host : Host m) (w : Workspace) (file : Text) :
    m (Except InputFault (Text × Block)) := do
  match ← host.read file with
  | .error fault => return .error (.read fault)
  | .ok source =>
    match Block.parse w.catalog source with
    | .ok root => return .ok (source, root)
    | .error fault =>
      host.complain (fault.headline ++ ['\n'])
      return .error (.parse fault)

/-- The reason that a count of files gives for a failure. -/
def countReason (count : Nat) (reason : Text) : Text := Text.ofNat count ++ " file(s) ".toList ++ reason

/-! ## Writing documents in their one form -/

/-- How many files failed and how many were not in their one form. -/
structure FormatCount where
  /-- The files that are no documents. -/
  failed : Nat
  /-- The files that were not in their one form. -/
  changed : Nat

/-- Writes one document in its one form, or prints it, or says that it is not in that form. -/
def formatFile (host : Host m) (w : Workspace) (write check : Bool) (count : FormatCount)
    (file : Text) : m FormatCount := do
  match ← parseFile host w file with
  | .error fault =>
    match fault with
    | .read fault =>
      host.complain ("  ".toList ++ badMark ++ [' '] ++ file ++ ": ".toList ++ fault.message ++ ['\n'])
    | .parse _ => pure ()
    return { count with failed := count.failed + 1 }
  | .ok (source, root) =>
    let text := root.serialize w.config.indent
    if text = source && (write || check) then return count
    else if write then
      host.write file text
      host.print ("  ".toList ++ goodMark ++ [' '] ++ file ++ ['\n'])
      return { count with changed := count.changed + 1 }
    else if check then
      host.print ("  ".toList ++ badMark ++ [' '] ++ file ++ ['\n'])
      return { count with changed := count.changed + 1 }
    else
      host.print text
      return count

/-- Writes documents in their one form. -/
def runFormat (host : Host m) (w : Workspace) (paths : List Text) (write check : Bool) :
    m Outcome := do
  match ← collectInputs host paths with
  | .error reason => return .failed reason
  | .ok files =>
    let count ← files.foldlM (formatFile host w write check) ⟨0, 0⟩
    if 0 < count.failed then return .failed (countReason count.failed "failed to parse".toList)
    else if check && 0 < count.changed then
      return .failed (countReason count.changed "would be reformatted".toList)
    else if write then
      host.print ("✨ Done ".toList ++ Text.ofNat count.changed ++ " of ".toList ++
        countReason files.length "reformatted\n".toList)
      return .done
    else return .done

/-! ## Checking documents -/

/-- The paths of blocks and the names of parameters that have to have a value and have none. -/
def missingRequired (root : Block) : List (Text × Text) :=
  root.inside.flatMap fun b =>
    (b.allParameters.filter fun s => s.required && s.value.isNone).map fun s => (b.path, s.name)

/-- The line of a warning. -/
def warningLine (file text : Text) : Text :=
  "  warning ".toList ++ file ++ ": ".toList ++ text ++ ['\n']

/-- The lines about one document. -/
def warningLines (file : Text) (strict : Bool) (root : Block) : List Text :=
  root.diagnostics.map (fun w => warningLine file w.message) ++
    if strict then
      (missingRequired root).map fun (path, parameter) =>
        warningLine file (path ++ " is missing required parameter '".toList ++ parameter ++ ['\x27'])
    else []

/-- Checks one document; the counts are of files that are no documents and of warnings. -/
def checkFile (host : Host m) (w : Workspace) (strict : Bool) (count : Nat × Nat) (file : Text) :
    m (Nat × Nat) := do
  match ← parseFile host w file with
  | .error _ => return (count.1 + 1, count.2)
  | .ok (_, root) =>
    let lines := warningLines file strict root
    host.print lines.flatten
    return (count.1, count.2 + lines.length)

/-- Checks documents. -/
def runCheck (host : Host m) (w : Workspace) (paths : List Text) (strict : Bool) :
    m Outcome := do
  host.print "🔍 Starting hitedit check\n".toList
  match ← collectInputs host paths with
  | .error reason => return .failed reason
  | .ok files =>
    let (failed, warnings) ← files.foldlM (checkFile host w strict) (0, 0)
    host.print ("\n   Files checked: ".toList ++ Text.ofNat files.length ++ ['\n'])
    if 0 < warnings then
      host.print ("   Warnings: ".toList ++ Text.ofNat warnings ++ ['\n'])
    if 0 < failed then return .failed (countReason failed "failed to parse".toList)
    else
      if warnings = 0 then
        host.print ("   ".toList ++ goodMark ++ " No issues found!\n".toList)
      return .done

/-! ## Showing blocks -/

/-- The line of an unused block. -/
def unusedLine (depth : Nat) (b : Block) : Text :=
  Text.times depth "  ".toList ++ b.name ++ " (unused)\n".toList

/-- The line of a block of the document. -/
def blockLine (table : Option IdentityTable) (depth : Nat) (info : BlockInfo) : Text :=
  Text.times depth "  ".toList ++ info.name ++
    ((info.subtype.map fun subtype => " (".toList ++ subtype ++ [')']).getD []) ++
    (if info.userAdded then [' ', '+'] else []) ++
    (((table.bind fun t => t.identityAt? info.path).map fun i => ' ' :: ' ' :: i).getD []) ++ ['\n']

mutual

/-- The lines of a block and the blocks inside of it. -/
def treeText (unused : Bool) (table : Option IdentityTable) (depth : Nat) : Block → Text
  | ⟨info, children, others⟩ =>
    blockLine table depth info ++ treesText unused table (depth + 1) children ++
      if unused then others.flatMap (unusedLine (depth + 1)) else []

/-- The lines of blocks one after the other. -/
def treesText (unused : Bool) (table : Option IdentityTable) (depth : Nat) : List Block → Text
  | [] => []
  | b :: bs => treeText unused table depth b ++ treesText unused table depth bs

end

/-- Shows the blocks of a document. -/
def runTree (host : Host m) (w : Workspace) (file : Text) (unused identities : Bool) :
    m Outcome := do
  match ← parseFile host w file with
  | .error (.read fault) => return .failed fault.message
  | .error (.parse fault) => return .failed fault.message
  | .ok (_, root) =>
    let table := if identities then some (IdentityTable.ofTree root) else none
    host.print (treesText unused table 0 root.children ++
      if unused then root.unused.flatMap (unusedLine 0) else [])
    return .done

/-! ## Setting a parameter -/

/-- What an edit did to a document, and its text afterwards: the document is opened in an engine,
edited, and everything that is due is done. -/
def editText (w : Workspace) (source : Text) (edit : Edit) :
    Except DocumentError (EditResult × Text) := do
  let engine ← Engine.ofText w.catalog source w.config.sync
  let step := engine.applyEdit edit
  let result ← step.answer
  return (result, step.engine.flush.engine.text)

/-- Sets one parameter of a document. -/
def runSet (host : Host m) (w : Workspace) (file block parameter value : Text) (write : Bool) :
    m Outcome := do
  match ← host.read file with
  | .error fault => return .failed fault.message
  | .ok source =>
    match editText w source (.setText block parameter value) with
    | .error (.parse fault) =>
      host.complain (fault.headline ++ ['\n'])
      return .failed fault.message
    | .error reason => return .failed reason.message
    | .ok (result, text) =>
      if write then
        host.write file text
        host.print ("  ".toList ++ goodMark ++ [' '] ++ result.path ++ ['/'] ++ parameter ++
          " = ".toList ++ value ++ " (version ".toList ++ Text.ofNat result.version ++ ")\n".toList)
      else host.print text
      return .done

/-! ## Running -/

/-- How the program is used. -/
def usage : Text :=
  ("hitedit - schema-aware editor for hierarchical block input files\n\n" ++
    "Usage: hitedit [OPTIONS] <COMMAND>\n\n" ++
    "Commands:\n" ++
    "  fmt [-w | --check] <PATHS>...                  Put input files into canonical form\n" ++
    "  check [-s] <PATHS>...                          Parse input files and report problems\n" ++
    "  tree [-u] [--ids] <FILE>                       Print the block tree of an input file\n" ++
    "  set [-w] <FILE> <BLOCK> <PARAMETER> <VALUE>    Set one parameter value\n\n" ++
    "Options:\n" ++
    "      --schema <SCHEMA>  Schema catalog JSON (overrides hitedit.config.json)\n" ++
    "  -v, --verbose          Debug logging\n" ++
    "  -h, --help             Print help\n" ++
    "  -V, --version          Print version\n").toList

/-- Does what a command asks for. -/
def runIn (host : Host m) (w : Workspace) : Command → m Outcome
  | .format paths write checkOnly => runFormat host w paths write checkOnly
  | Command.check paths strict => runCheck host w paths strict
  | .tree file unused identities => runTree host w file unused identities
  | .set file block parameter value write => runSet host w file block parameter value write
  | .help => do
    host.print usage
    return .done
  | .version => do
    host.print "hitedit 0.1.0\n".toList
    return .done

/-- Runs a command line. -/
def run (host : Host m) (args : List Text) : m Outcome := do
  match Arguments.read? args with
  | none => return .misused
  | some ⟨_, .help⟩ => runIn host ⟨{}, Catalog.empty⟩ .help
  | some ⟨_, .version⟩ => runIn host ⟨{}, Catalog.empty⟩ .version
  | some ⟨schema, command⟩ =>
    match ← loadWorkspace host schema with
    | .error reason => return .failed reason
    | .ok w => runIn host w command

end Command

end BlockEdit
