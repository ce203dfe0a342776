import BlockEdit.Text.Basic

/-!
# Arguments of a command line

A command line is the name of a command with options and operands. Options may stand anywhere in
front of `--`; behind it everything is an operand. An option that takes a value has it behind an
equality sign or as the next argument, and no option may be given twice on the same level.

Arguments are read from the left. The first one that makes no sense where it stands, or that asks
for help, ends the reading; what can only be told at the end, such as a missing operand, comes after
that.
-/

namespace BlockEdit

/-- What to do. -/
inductive Command where
  /-- Writes documents in their one form. -/
  | format (paths : List Text) (write check : Bool)
  /-- Reads documents and says what is wrong with them. -/
  | check (paths : List Text) (strict : Bool)
  /-- Shows the blocks of a document. -/
  | tree (file : Text) (unused identities : Bool)
  /-- Sets one parameter of a document. -/
  | set (file block parameter value : Text) (write : Bool)
  /-- Says how the program is used. -/
  | help
  /-- Says which version the program has. -/
  | version
deriving DecidableEq, Repr

/-- A command line that makes sense. -/
structure Invocation where
  /-- The file of the catalog. -/
  schema : Option Text
  /-- What to do. -/
  command : Command
deriving DecidableEq, Repr

namespace Arguments

/-- The options that take no value. -/
inductive Flag where
  | verbose
  | help
  | version
  | write
  | check
  | strict
  | unused
  | ids
deriving DecidableEq, Repr

/-- What has been read of the arguments on one level. -/
structure Parsed where
  /-- The file of the catalog. -/
  schema : Option Text
  /-- The options that take no value. -/
  flags : List Flag
  /-- The operands. -/
  operands : List Text
deriving DecidableEq, Repr

/-- What the arguments of one level can be. -/
structure Level where
  /-- The options that take no value. -/
  known : List Flag
  /-- Whether an operand may follow so many others; none when the first operand ends the level. -/
  takes? : Option (Nat → Text → Bool)

/-- No argument has been read. -/
def Parsed.start : Parsed := ⟨none, [], []⟩

/-- The long name of an option. -/
def Flag.long : Flag → Text
  | verbose => "verbose".toList
  | help => "help".toList
  | version => "version".toList
  | write => "write".toList
  | check => "check".toList
  | strict => "strict".toList
  | unused => "unused".toList
  | ids => "ids".toList

/-- The letter of an option. -/
def Flag.short? : Flag → Option Char
  | verbose => some 'v'
  | help => some 'h'
  | version => some 'V'
  | write => some 'w'
  | strict => some 's'
  | unused => some 'u'
  | _ => none

/-- How reading the arguments can end early. -/
inductive Stop where
  /-- The arguments make no sense. -/
  | misuse
  /-- Someone asked how the program is used. -/
  | help
  /-- Someone asked for the version. -/
  | version
deriving DecidableEq, Repr

/-- Adds an option. The options that ask for help or the version end the reading. -/
def addFlag (p : Parsed) : Option Flag → Except Stop Parsed
  | none => .error .misuse
  | some .help => .error .help
  | some .version => .error .version
  | some f => if f ∈ p.flags then .error .misuse else .ok { p with flags := p.flags ++ [f] }

/-- Adds the options of one argument that are given by their letters. -/
def addLetters (known : List Flag) (p : Parsed) : Text → Except Stop Parsed
  | [] => .ok p
  | c :: rest =>
    match addFlag p (known.find? fun f => f.short? = some c) with
    | .ok p => addLetters known p rest
    | .error s => .error s

/-- Adds the file of the catalog. -/
def addSchema (p : Parsed) (file : Text) : Except Stop Parsed :=
  if p.schema.isSome || file.isEmpty then .error .misuse else .ok { p with schema := some file }

/-- Whether an argument is an option, or several. -/
def isOption : Text → Bool
  | '-' :: _ :: _ => true
  | _ => false

/-- What stands before the first equality sign and behind it. -/
def splitValue (t : Text) : Text × Option Text :=
  match Text.splitFirst? ['='] t with
  | some (name, value) => (name, some value)
  | none => (t, none)

/-- Adds an operand where the level takes it. -/
def addOperand (takes : Nat → Text → Bool) (p : Parsed) (operand : Text) : Except Stop Parsed :=
  if takes p.operands.length operand then .ok { p with operands := p.operands ++ [operand] }
  else .error .misuse

/-- Reads the arguments of one level, and what follows the operand that ends it, that operand
included. -/
def readLevel (level : Level) : (steps : Nat) → Parsed → List Text →
    Except Stop (Parsed × List Text)
  | 0, p, _ => .ok (p, [])
  | _, p, [] => .ok (p, [])
  | steps + 1, p, arg :: args =>
    match arg with
    | ['-', '-'] =>
      match level.takes? with
      | none => .error .misuse
      | some takes => (args.foldlM (addOperand takes) p).map fun p => (p, [])
    | '-' :: '-' :: option =>
      let (name, value) := splitValue option
      if name = "schema".toList then
        match value, args with
        | some file, args => (addSchema p file).bind (readLevel level steps · args)
        | none, file :: args =>
          if isOption file then .error .misuse
          else (addSchema p file).bind (readLevel level steps · args)
        | none, [] => .error .misuse
      else if value.isSome then .error .misuse
      else
        (addFlag p (level.known.find? fun f => f.long = name)).bind (readLevel level steps · args)
    | '-' :: c :: letters =>
      (addLetters level.known p (c :: letters)).bind (readLevel level steps · args)
    | operand =>
      match level.takes? with
      | none => .ok (p, operand :: args)
      | some takes => (addOperand takes p operand).bind (readLevel level steps · args)

/-! ## Commands -/

/-- Operands that all name files. -/
def anyFiles (_ : Nat) (operand : Text) : Bool := !operand.isEmpty

/-- At most `most` operands, of which the first names a file. -/
def oneFile (most before : Nat) (operand : Text) : Bool :=
  before < most && (before != 0 || !operand.isEmpty)

/-- What the arguments of a command can be, by its name. -/
def commandLevel? (name : Text) : Option Level :=
  if name = "fmt".toList then some ⟨[.verbose, .help, .write, .check], some anyFiles⟩
  else if name = "check".toList then some ⟨[.verbose, .help, .strict], some anyFiles⟩
  else if name = "tree".toList then some ⟨[.verbose, .help, .unused, .ids], some (oneFile 1)⟩
  else if name = "set".toList then some ⟨[.verbose, .help, .write], some (oneFile 4)⟩
  else none

/-- The arguments in front of the name of a command. -/
def topLevel : Level := ⟨[.verbose, .help, .version], none⟩

/-- The command of this name with these arguments. -/
def command (name : Text) (p : Parsed) : Except Stop Command :=
  let has := fun f => p.flags.contains f
  if name = "fmt".toList then
    if p.operands.isEmpty || (has .write && has .check) then .error .misuse
    else .ok (.format p.operands (has .write) (has .check))
  else if name = "check".toList then
    if p.operands.isEmpty then .error .misuse else .ok (.check p.operands (has .strict))
  else if name = "tree".toList then
    match p.operands with
    | [file] => .ok (.tree file (has .unused) (has .ids))
    | _ => .error .misuse
  else
    match p.operands with
    | [file, block, parameter, value] => .ok (.set file block parameter value (has .write))
    | _ => .error .misuse

/-- Reads the arguments behind the name of a command. -/
def readCommand (schema : Option Text) (name : Text) (args : List Text) :
    Except Stop Invocation :=
  if name = "help".toList then
    match args with
    | [] => .error .help
    | [topic] =>
      if (commandLevel? topic).isSome || topic = "help".toList then .error .help
      else .error .misuse
    | _ :: _ :: _ => .error .misuse
  else
    match commandLevel? name with
    | none => .error .misuse
    | some level => do
      let (p, _) ← readLevel level args.length Parsed.start args
      return ⟨p.schema.or schema, ← command name p⟩

/-- Reads a command line, without the name of the program; none when it makes no sense. -/
def read? (args : List Text) : Option Invocation :=
  let read : Except Stop Invocation := do
    let (p, rest) ← readLevel topLevel args.length Parsed.start args
    match rest with
    | [] => .error .misuse
    | name :: rest => readCommand p.schema name rest
  match read with
  | .ok invocation => some invocation
  | .error .help => some ⟨none, .help⟩
  | .error .version => some ⟨none, .version⟩
  | .error .misuse => none

end Arguments

end BlockEdit
