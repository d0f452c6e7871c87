import ScopedAggregation.Config.Flags
import ScopedAggregation.Log.Format
import ScopedAggregation.Text.Case

namespace ScopedAggregation

structure Settings where
  host : Text
  port : Int
  rpcPort : Int
  definitionsDir : Text
  databasePath : Text
  maxDepth : Int
  logLevel : Text
  logFormat : Text
deriving DecidableEq, Repr

/-- What is wrong with settings. -/
inductive SettingsError where
  | notInteger (key value : Text)
  | portRange (port : Int)
  | rpcPortRange (port : Int)
  | samePort (port : Int)
  | maxDepth (depth : Int)
  | logLevel (name : Text)
  | logFormat (name : Text)
deriving DecidableEq, Repr

def SettingsError.message : SettingsError → Text
  | .notInteger key value => key ++ text ": invalid integer " ++ Text.quoted value
  | .portRange n => text "port " ++ Text.ofInt n ++ text " out of range"
  | .rpcPortRange n => text "grpc port " ++ Text.ofInt n ++ text " out of range"
  | .samePort n => text "port and grpc port must differ, both are " ++ Text.ofInt n
  | .maxDepth n => text "max depth must be positive, got " ++ Text.ofInt n
  | .logLevel name => text "unknown log level " ++ Text.quoted name
  | .logFormat name => text "unknown log format " ++ Text.quoted name

/-- Several faults, one on a line. -/
def SettingsError.messages (es : List SettingsError) : Text :=
  Text.join [Ascii.newline] (es.map SettingsError.message)

/-- The values of environment variables; an unset one is empty. -/
abbrev Environment := Text → Text

namespace Environment

def textOr (env : Environment) (key : String) (standard : Text) : Text :=
  let v := env (text key)
  if v.isEmpty then standard else v

def intOr (env : Environment) (key : String) (standard : Int) : Except SettingsError Int :=
  let v := env (text key)
  if v.isEmpty then .ok standard
  else match Numeral.readInt (some 10) v with
    | .ok i => .ok i
    | .error _ => .error (.notInteger (text key) v)

end Environment

/-- The level of a name in any case; no name means the second one. -/
def LogLevel.ofName (name : Text) : Except SettingsError LogLevel :=
  let word := Text.lowerCase name
  let is (w : String) : Bool := word = text w
  if is "debug" then .ok .debug
  else if is "info" || is "" then .ok .info
  else if is "warn" || is "warning" then .ok .warn
  else if is "error" then .ok .error
  else .error (.logLevel name)

namespace Settings

/-- The flags of the service. -/
def flags : List Flag := [
  ⟨text "port", .int, none⟩, ⟨text "grpc-port", .int, none⟩, ⟨text "host", .text, none⟩,
  ⟨text "definitions-dir", .text, none⟩, ⟨text "db", .text, none⟩,
  ⟨text "max-depth", .int, none⟩, ⟨text "log-level", .text, none⟩,
  ⟨text "log-format", .text, none⟩]

/-- The settings of the environment. -/
def ofEnvironment (env : Environment) : Except SettingsError Settings := do
  let port ← env.intOr "PORT" 8787
  let rpcPort ← env.intOr "GRPC_PORT" 8788
  let maxDepth ← env.intOr "MAX_DEPTH" 256
  pure
    { host := env.textOr "HOST" (text "0.0.0.0")
      port := port
      rpcPort := rpcPort
      definitionsDir := env.textOr "DEFINITIONS_DIR" []
      databasePath := env.textOr "DB_PATH" []
      maxDepth := maxDepth
      logLevel := env.textOr "LOG_LEVEL" (text "info")
      logFormat := env.textOr "LOG_FORMAT" (text "text") }

/-- The settings with the values of flags in place of their own. -/
def override (fs : Flags) (s : Settings) : Settings :=
  let int (name : String) (old : Int) : Int :=
    match fs.int? name with
    | some i => if i = 0 then old else i
    | none => old
  let string (name : String) (old : Text) : Text :=
    match fs.text? name with
    | some v => if v.isEmpty then old else v
    | none => old
  { host := string "host" s.host
    port := int "port" s.port
    rpcPort := int "grpc-port" s.rpcPort
    definitionsDir := string "definitions-dir" s.definitionsDir
    databasePath := string "db" s.databasePath
    maxDepth := int "max-depth" s.maxDepth
    logLevel := string "log-level" s.logLevel
    logFormat := string "log-format" s.logFormat }

def load (env : Environment) (fs : Flags) : Except SettingsError Settings :=
  (ofEnvironment env).map (override fs)

def isPort (n : Int) : Bool := 1 ≤ n && n ≤ 65535

/-- Everything that is wrong, in order. -/
def faults (s : Settings) : List SettingsError :=
  (if isPort s.port then [] else [.portRange s.port])
    ++ (if isPort s.rpcPort then [] else [.rpcPortRange s.rpcPort])
    ++ (if s.port = s.rpcPort then [.samePort s.port] else [])
    ++ (if s.maxDepth < 1 then [.maxDepth s.maxDepth] else [])
    ++ (match LogLevel.ofName s.logLevel with
      | .ok _ => []
      | .error e => [e])
    ++ (if s.logFormat = text "text" || s.logFormat = text "json" then []
      else [.logFormat s.logFormat])

/-- A host and a port; a host with a colon or a percent sign goes into brackets. -/
def joinHostPort (host : Text) (port : Int) : Text :=
  let host :=
    if host.any fun b => b = Ascii.colon || b = Ascii.percent then
      [Ascii.openBracket] ++ host ++ [Ascii.closeBracket]
    else host
  host ++ [Ascii.colon] ++ Text.ofInt port

def address (s : Settings) : Text := joinHostPort s.host s.port

def rpcAddress (s : Settings) : Text := joinHostPort s.host s.rpcPort

/-- The logger of the settings; no format means the text form. -/
def logger (s : Settings) : Except SettingsError Logger := do
  let level ← LogLevel.ofName s.logLevel
  if s.logFormat = text "json" then pure ⟨level, .json⟩
  else if s.logFormat = text "text" || s.logFormat.isEmpty then pure ⟨level, .text⟩
  else .error (.logFormat s.logFormat)

end Settings

end ScopedAggregation
