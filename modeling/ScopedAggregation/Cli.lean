import ScopedAggregation.Cli.Command
import ScopedAggregation.Config
import ScopedAggregation.Definition.Failure

namespace ScopedAggregation.Cli

/-- The program's own name. -/
def programName : Text := text "aggexpr"

def version : Text := text "dev (commit=unknown, built=unknown)"

/-- What a run can see: its environment, standard input, and files, which give their content or say
why they cannot be read. -/
structure World where
  environment : Environment
  input : Text
  contentOf : Text → Except Text Text
  checkDatabase : Text → Except Text Unit

/-- Why a run fails. -/
inductive Failure where
  | flags (error : FlagError)
  | unknownCommand (name : Text)
  | tooManyArguments (count : Nat)
  | unexpectedArgument (argument : Text)
  | unreadable (reason : Text)
  | noDocument (error : Definition.Failure)
  | unencodable (error : EncodeError)
  | settings (error : SettingsError)
  | invalidSettings (errors : List SettingsError)
  | database (path reason : Text)

namespace Failure

/-- The names that may have been meant. -/
def meant (word : Text) : Text :=
  match suggestions word with
  | [] => []
  | names =>
    text "\n\nDid you mean this?\n"
      ++ names.flatMap fun n => [Ascii.tab] ++ n ++ [Ascii.newline]

def message : Failure → Text
  | .flags e => e.message
  | .unknownCommand name =>
    text "unknown command " ++ Text.quoted name ++ text " for " ++ Text.quoted programName
      ++ meant name
  | .tooManyArguments count =>
    text "accepts at most 1 arg(s), received " ++ Text.ofNat count
  | .unexpectedArgument argument =>
    text "unknown command " ++ Text.quoted argument ++ text " for "
      ++ Text.quoted (programName ++ text " serve")
  | .unreadable reason => text "reading definition: " ++ reason
  | .noDocument e => e.message
  | .unencodable e => e.message
  | .settings e => e.message
  | .invalidSettings es =>
    text "invalid configuration: " ++ SettingsError.messages es
  | .database path reason => text "open database " ++ path ++ text ": " ++ reason

/-- What is printed about a failure. -/
def report (e : Failure) : Text :=
  text "Error: " ++ e.message ++ [Ascii.newline]
    ++ match e with
      | .unknownCommand _ =>
        text "Run '" ++ programName ++ text " --help' for usage.\n"
      | _ => []

end Failure

def helpFlag : Flag := ⟨text "help", .switch, some 0x68⟩

def versionFlag : Flag := ⟨text "version", .switch, some 0x76⟩

def compileFlags : List Flag :=
  [⟨text "indent", .switch, none⟩, ⟨text "max-depth", .int, none⟩,
    ⟨text "validate", .switch, none⟩, helpFlag]

def readFlags (known : List Flag) (arguments : List Text) : Except Failure Flags :=
  (Flags.read known arguments).mapError .flags

/-- How a document is compiled and printed. -/
structure CompileOptions where
  maxDepth : Int := 256
  indent : Bool := false
  validateOnly : Bool := false
deriving DecidableEq, Repr

/-- What a command line asks for. -/
inductive Action where
  | help
  | version
  | compile (path : Text) (options : CompileOptions)
  | serve (flags : Flags)
deriving DecidableEq, Repr

def readCompile (arguments : List Text) : Except Failure Action := do
  let fs ← readFlags compileFlags arguments
  if fs.switch "help" then pure .help
  else if 1 < fs.arguments.length then .error (.tooManyArguments fs.arguments.length)
  else
    pure (.compile (fs.arguments.headD (text "-"))
      { maxDepth := (fs.int? "max-depth").getD 256
        indent := fs.switch "indent"
        validateOnly := fs.switch "validate" })

def readServe (arguments : List Text) : Except Failure Action := do
  let fs ← readFlags (helpFlag :: Settings.flags) arguments
  if fs.switch "help" then pure .help
  else match fs.arguments with
    | argument :: _ => .error (.unexpectedArgument argument)
    | [] => pure (.serve fs)

def readRoot (arguments : List Text) : Except Failure Action := do
  let fs ← readFlags [helpFlag, versionFlag] arguments
  if fs.switch "help" then pure .help
  else if fs.switch "version" then pure .version
  else pure .help

/-- Reads a command line. -/
def read (arguments : List Text) : Except Failure Action :=
  match firstWord [] arguments with
  | none => readRoot arguments
  | some (before, word, after) =>
    match commands.lookup word with
    | some .compile => readCompile (before ++ after)
    | some .serve => readServe (before ++ after)
    | some _ => .ok .help
    | none => .error (.unknownCommand word)

/-- What a run comes to. -/
inductive Outcome where
  | printed (output : Text)
  | help
  | serve (settings : Settings)

/-- The source of a definition: standard input, no further than one byte past the limit, or a
file. -/
def readSource (w : World) (path : Text) : Except Failure Text :=
  if path = text "-" then .ok (w.input.take (Definition.maxSourceSize + 1))
  else (w.contentOf path).mapError .unreadable

/-- What is printed for a source. -/
def compile (options : CompileOptions) (source : Text) : Except Failure Text := do
  let (result, _) := Definition.outcomeOf (Compiler.ofLimit options.maxDepth) source
  let v ← result.mapError Failure.noDocument
  if options.validateOnly then pure (text "ok\n")
  else
    let encoded := if options.indent then v.encodeIndented (text "  ") else v.encode
    let s ← encoded.mapError Failure.unencodable
    pure (s ++ [Ascii.newline])

/-- The settings to serve with; they have to be sound and the database has to open. -/
def serveSettings (w : World) (fs : Flags) : Except Failure Settings := do
  let s ← (Settings.load w.environment fs).mapError .settings
  if !s.faults.isEmpty then .error (.invalidSettings s.faults)
  else
    if !s.databasePath.isEmpty then
      (w.checkDatabase s.databasePath).mapError (.database s.databasePath)
    pure s

/-- Runs a command line. -/
def run (w : World) (arguments : List Text) : Except Failure Outcome := do
  match ← read arguments with
  | .help => pure .help
  | .version =>
    pure (.printed (programName ++ text " version " ++ version ++ [Ascii.newline]))
  | .compile path options =>
    let source ← readSource w path
    let output ← compile options source
    pure (.printed output)
  | .serve fs =>
    let s ← serveSettings w fs
    pure (.serve s)

end ScopedAggregation.Cli
