import ScopedAggregation.Formula.Template
import ScopedAggregation.Yaml.Node

namespace ScopedAggregation

/-- What a source is read as. -/
inductive SourceKind where
  | definition
  | expression
deriving DecidableEq, Repr

def SourceKind.name : SourceKind → Text
  | .definition => text "definition"
  | .expression => text "expression"

namespace Definition

/-- The greatest size of a source in bytes. -/
def maxSourceSize : Nat := 128 * 1024

/-- How deeply the nodes of an expression may nest. -/
def maxNesting : Nat := 128

/-- The greatest number of stages. -/
def maxStages : Nat := 100

/-- A place in a source. -/
inductive Location where
  | unknown
  | line (n : Nat)
  | operator (line : Nat) (op : Text)
  | stage (index : Nat)
  | namedStage (index : Nat) (name : Text)
deriving DecidableEq, Repr

def Location.display : Location → Text
  | .unknown => []
  | .line n => text "line " ++ Text.ofNat n
  | .operator n op => text "line " ++ Text.ofNat n ++ text " (" ++ op ++ text ")"
  | .stage i => text "stage " ++ Text.ofNat i
  | .namedStage i name => text "stage " ++ Text.ofNat i ++ text " (" ++ name ++ text ")"

inductive Fault where
  | tooLarge (what : SourceKind) (size : Nat)
  | notYaml (reason : Yaml.Malformed)
  | empty (what : SourceKind)
  | notMapping
  | unknownKey (key : Text)
  | bothForms
  | neitherForm
  | inputName
  | inputTarget (name : Text)
  | inputShape
  | tooDeep
  | formula (fault : Formula.Fault)
  | emptyVariable
  | emptyField
  | operatorAmongKeys (key : Text)
  | repeatedKey (key : Text)
  | argumentCount (op : Text) (count : Nat)
  | argumentShape
  | unknownArgument (name : Text)
  | variableShape
  | build (error : CompileError)
  | stagesShape
  | noStages
  | tooManyStages (count : Nat)
  | stageShape
  | unknownStage (name : Text)
  | groupShape
  | noGroupKey
  | accumulatorShape (output : Text)
  | groupKeyShape
  | groupKeyTarget (name : Text)
  | projectShape
deriving Repr

namespace Fault

/-- A text between apostrophes. -/
def ticked (s : Text) : Text := [Ascii.singleQuote] ++ s ++ [Ascii.singleQuote]

def message : Fault → Text
  | .tooLarge what size =>
    what.name ++ text " source size " ++ Text.ofNat size ++ text " exceeds maximum "
      ++ Text.ofNat maxSourceSize ++ text " bytes"
  | .notYaml reason => text "invalid YAML: " ++ reason.message
  | .empty what => text "empty " ++ what.name
  | .notMapping => text "definition must be a mapping"
  | .unknownKey key => text "unknown key " ++ ticked key ++ text " in definition"
  | .bothForms => text "definition must have either 'expression' or 'stages', not both"
  | .neitherForm => text "definition must have 'expression' or 'stages'"
  | .inputName => text "input field must be a name"
  | .inputTarget name =>
    text "input field " ++ ticked name ++ text " must map to a field reference"
  | .inputShape => text "input must be a sequence or mapping"
  | .tooDeep => text "definition nesting exceeds maximum depth of " ++ Text.ofNat maxNesting
  | .formula fault => fault.message
  | .emptyVariable => text "empty variable reference"
  | .emptyField => text "empty field reference"
  | .operatorAmongKeys key =>
    text "operator " ++ ticked key ++ text " must be the only key of its mapping"
  | .repeatedKey key => text "duplicate key " ++ ticked key
  | .argumentCount op count => op ++ text " does not accept " ++ Text.ofNat count
      ++ text " argument(s)"
  | .argumentShape => text "arguments must be a mapping"
  | .unknownArgument name => text "unknown argument " ++ ticked name
  | .variableShape => text "vars must be a mapping"
  | .build error => error.message
  | .stagesShape => text "stages must be a sequence"
  | .noStages => text "pipeline must have at least one stage"
  | .tooManyStages count => text "pipeline has " ++ Text.ofNat count
      ++ text " stages, maximum is " ++ Text.ofNat maxStages
  | .stageShape => text "each stage must be a single-key mapping"
  | .unknownStage name => text "unknown stage " ++ ticked name
  | .groupShape => text "$group must be a mapping"
  | .noGroupKey => text "$group must have an '_id'"
  | .accumulatorShape output => text "accumulator " ++ ticked output
      ++ text " must be a single-key mapping like \x7b$sum: ...\x7d"
  | .groupKeyShape =>
    text "_id must be null, a field reference or a mapping of field references"
  | .groupKeyTarget name => text "_id field " ++ ticked name ++ text " must be a field reference"
  | .projectShape => text "$project must be a mapping"

/-- The error of building behind a fault, if there is one. -/
def compileError? : Fault → Option CompileError
  | .formula fault => fault.compileError?
  | .build error => some error
  | _ => none

end Fault

/-- A fault and its place. -/
structure Rejection where
  fault : Fault
  location : Location := .unknown
deriving Repr

def Rejection.message (e : Rejection) : Text :=
  let place := e.location.display
  (if place.isEmpty then text "parse error: " else text "parse error at " ++ place ++ text ": ")
    ++ e.fault.message

end Definition

end ScopedAggregation
