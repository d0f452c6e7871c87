import ScopedAggregation.Number.Numeral
import ScopedAggregation.Text.Quoted

namespace ScopedAggregation

/-- What a flag takes. -/
inductive FlagKind where
  | int
  | text
  | switch
deriving DecidableEq, Repr

/-- A flag, its kind and its letter, if it has one. -/
structure Flag where
  name : Text
  kind : FlagKind
  letter : Option UInt8 := none
deriving DecidableEq, Repr

/-- The value that a flag was given. -/
inductive FlagValue where
  | int (i : Int)
  | text (s : Text)
  | switch (b : Bool)
deriving DecidableEq, Repr

/-- Why flags cannot be read. -/
inductive FlagError where
  | unknown (name : Text)
  | unknownLetter (letter : UInt8) (letters : Text)
  | malformed (argument : Text)
  | needsArgument (argument : Text)
  | invalid (flag : Flag) (value : Text) (reason : NumeralError)
  | helpRequested
deriving DecidableEq, Repr

namespace Flag

/-- The flag as messages name it. -/
def shown (f : Flag) : Text :=
  match f.letter with
  | some l => [Ascii.minus, l] ++ ScopedAggregation.text ", --" ++ f.name
  | none => ScopedAggregation.text "--" ++ f.name

/-- Reads a truth value. -/
def readSwitch (s : Text) : Except NumeralError Bool :=
  let among (words : List String) : Bool := words.any fun w => ScopedAggregation.text w = s
  if among ["1", "t", "T", "TRUE", "true", "True"] then .ok true
  else if among ["0", "f", "F", "FALSE", "false", "False"] then .ok false
  else .error .malformed

/-- Reads the value of a flag. -/
def read (f : Flag) (s : Text) : Except FlagError FlagValue :=
  match f.kind with
  | .text => .ok (.text s)
  | .int =>
    match Numeral.readInt none s with
    | .ok i => .ok (.int i)
    | .error e => .error (.invalid f s e)
  | .switch =>
    match readSwitch s with
    | .ok b => .ok (.switch b)
    | .error e => .error (.invalid f s e)

end Flag

namespace FlagError

/-- The reader of values of a kind, as messages name it. -/
def readerName : FlagKind → Text
  | .switch => text "strconv.ParseBool"
  | _ => text "strconv.ParseInt"

def message : FlagError → Text
  | .unknown name => text "unknown flag: --" ++ name
  | .unknownLetter l letters =>
    text "unknown shorthand flag: " ++ Text.quotedUnit (.char (Char.ofNat l.toNat))
      ++ text " in -" ++ letters
  | .malformed argument => text "bad flag syntax: " ++ argument
  | .needsArgument argument => text "flag needs an argument: " ++ argument
  | .invalid f value reason =>
    text "invalid argument " ++ Text.quoted value ++ text " for " ++ Text.quoted f.shown
      ++ text " flag: " ++ readerName f.kind ++ text ": parsing " ++ Text.quoted value
      ++ text ": " ++ reason.message
  | .helpRequested => text "pflag: help requested"

end FlagError

/-- Flags that were given, in order, and the arguments beside them. -/
structure Flags where
  values : List (Text × FlagValue) := []
  arguments : List Text := []
deriving DecidableEq, Repr

namespace Flags

/-- The last value of a flag. -/
def get? (name : String) (fs : Flags) : Option FlagValue :=
  (fs.values.reverse.find? (·.1 = text name)).map (·.2)

def int? (name : String) (fs : Flags) : Option Int :=
  match fs.get? name with
  | some (.int i) => some i
  | _ => none

def text? (name : String) (fs : Flags) : Option Text :=
  match fs.get? name with
  | some (.text s) => some s
  | _ => none

def switch (name : String) (fs : Flags) : Bool :=
  match fs.get? name with
  | some (.switch b) => b
  | _ => false

def set (f : Flag) (value : Text) (fs : Flags) : Except FlagError Flags := do
  let v ← f.read value
  pure { fs with values := fs.values ++ [(f.name, v)] }

/-- Reads letters behind a single hyphen; every flag with a letter is a switch. -/
def readLetters (known : List Flag) : Nat → Text → Flags → Except FlagError Flags
  | 0, _, fs => .ok fs
  | _ + 1, [], fs => .ok fs
  | n + 1, l :: rest, fs =>
    match known.find? fun f => f.letter = some l with
    | none =>
      if l = 0x68 then .error .helpRequested else .error (.unknownLetter l (l :: rest))
    | some f =>
      match rest with
      | 0x3d :: b :: value => fs.set f (b :: value)
      | rest => do
        let fs ← fs.set f (text "true")
        readLetters known n rest fs

/-- Cuts a flag at its equals sign, if it has one. -/
def splitValue (s : Text) : Text × Option Text :=
  match Text.cut? [Ascii.equals] s with
  | some (name, value) => (name, some value)
  | none => (s, none)

/-- Reads the arguments of a command line. -/
def readFrom (known : List Flag) : Flags → List Text → Except FlagError Flags
  | fs, [] => .ok fs
  | fs, [0x2d, 0x2d] :: rest => .ok { fs with arguments := fs.arguments ++ rest }
  | fs, (0x2d :: 0x2d :: body) :: rest =>
    let argument := 0x2d :: 0x2d :: body
    let (name, value) := splitValue body
    if body.head? = some Ascii.minus || body.head? = some Ascii.equals then
      .error (.malformed argument)
    else match known.find? fun f => f.name = name with
      | none => if name = text "help" then .error .helpRequested else .error (.unknown name)
      | some f =>
        match value, f.kind, rest with
        | some value, _, rest => do readFrom known (← fs.set f value) rest
        | none, .switch, rest => do readFrom known (← fs.set f (text "true")) rest
        | none, _, value :: rest => do readFrom known (← fs.set f value) rest
        | none, _, [] => .error (.needsArgument argument)
  | fs, (0x2d :: l :: letters) :: rest => do
    let fs ← readLetters known (letters.length + 1) (l :: letters) fs
    readFrom known fs rest
  | fs, argument :: rest => readFrom known { fs with arguments := fs.arguments ++ [argument] } rest

def read (known : List Flag) (arguments : List Text) : Except FlagError Flags :=
  readFrom known {} arguments

end Flags

end ScopedAggregation
