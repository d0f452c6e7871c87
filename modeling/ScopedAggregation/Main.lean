import ScopedAggregation.Cli

namespace ScopedAggregation

/-- The environment variables that settings are taken from. -/
def variableNames : List String :=
  ["HOST", "PORT", "GRPC_PORT", "DEFINITIONS_DIR", "DB_PATH", "MAX_DEPTH", "LOG_LEVEL",
    "LOG_FORMAT"]

def readEnvironment : IO Environment := do
  let values ← variableNames.mapM fun name => do
    let value ← IO.getEnv name
    pure (text name, text (value.getD ""))
  pure fun key => (values.lookup key).getD []

/-- Why a file cannot be read. -/
def fileReason (path : Text) : IO.Error → Text
  | .noFileOrDirectory .. => text "open " ++ path ++ text ": no such file or directory"
  | .permissionDenied .. => text "open " ++ path ++ text ": permission denied"
  | .inappropriateType .. => text "read " ++ path ++ text ": is a directory"
  | e => text (ToString.toString e)

def readContent (path : Text) : IO (Except Text Text) := do
  try
    let bytes ← IO.FS.readBinFile path.toString
    pure (.ok bytes.toList)
  catch e => pure (.error (fileReason path e))

/-- What a command line needs to see of the system. -/
def readWorld (arguments : List Text) : IO Cli.World := do
  let environment ← readEnvironment
  let world : Cli.World :=
    { environment := environment, input := [], contentOf := fun _ => .ok []
      checkDatabase := fun _ => .ok () }
  match Cli.read arguments with
  | .ok (.compile path _) =>
    if path = text "-" then
      let stdin ← IO.getStdin
      let bytes ← stdin.readBinToEnd
      pure { world with input := bytes.toList }
    else
      let content ← readContent path
      pure { world with contentOf := fun _ => content }
  | _ => pure world

def write (stream : IO.FS.Stream) (s : Text) : IO Unit := stream.write ⟨s.toArray⟩

end ScopedAggregation

open ScopedAggregation in
def main (arguments : List String) : IO UInt32 := do
  let arguments := arguments.map text
  let world ← readWorld arguments
  match Cli.run world arguments with
  | .ok (.printed output) =>
    write (← IO.getStdout) output
    pure 0
  | .ok .help => pure 0
  | .ok (.serve settings) =>
    write (← IO.getStderr) (text "not listening on " ++ settings.address ++ text "\n")
    pure 1
  | .error e =>
    write (← IO.getStderr) e.report
    pure 1
