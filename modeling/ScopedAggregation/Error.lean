import ScopedAggregation.Scope.Fields
import ScopedAggregation.Text.Quoted

namespace ScopedAggregation

/-- The three classes of errors, and those that a caller names. -/
inductive ErrorKind where
  | invalidArgument
  | unresolvedName
  | depthExceeded
  | named (name : Text)
deriving DecidableEq, Repr

namespace ErrorKind

def name : ErrorKind → Text
  | .invalidArgument => text "InvalidArgument"
  | .unresolvedName => text "UnresolvedName"
  | .depthExceeded => text "DepthExceeded"
  | .named name => name

/-- The label of an outcome in the counters. -/
def label : ErrorKind → Text
  | .invalidArgument => text "invalid_argument"
  | .unresolvedName => text "unresolved_name"
  | .depthExceeded => text "depth_exceeded"
  | .named _ => text "error"

end ErrorKind

/-- Why building or compiling failed. -/
inductive Cause where
  | noRoot
  | noInput
  | noItemName
  | noMapping
  | noCondition
  | noInitialValue
  | noFold
  | noBody
  | unnamedVariable (index : Nat)
  | malformedVariable
  | repeatedVariable
  | noVariableValue
  | unpairedKeys
  | keyNotString (shown : Text)
  | unequalLengths (keys values : Nat)
  | repeatedKey
  | noStage (index : Nat)
  | noProjectedName
  | noProjection
  | repeatedOutput
  | emptyProjection
  | noOperand
  | noFieldName
  | noOutputName
  | outputIsKey
  | emptyReference
  | notExposed (fields : Fields)
  | hidden (fields : Fields)
  | unbound
  | tooDeep (limit : Int)
  | stated (kind : ErrorKind) (message : Text)
deriving DecidableEq, Repr

namespace Cause

def kind : Cause → ErrorKind
  | .emptyReference | .notExposed _ | .hidden _ | .unbound => .unresolvedName
  | .tooDeep _ => .depthExceeded
  | .stated k _ => k
  | _ => .invalidArgument

def message : Cause → Text
  | .noRoot => text "root expression must not be nil"
  | .noInput => text "input must not be empty"
  | .noItemName => text "item variable name must not be empty"
  | .noMapping => text "mapping expression must not be nil"
  | .noCondition => text "condition must not be nil"
  | .noInitialValue => text "initial value must not be nil"
  | .noFold => text "fold expression must not be nil"
  | .noBody => text "body expression must not be nil"
  | .unnamedVariable i => text "variable " ++ Text.ofNat i ++ text " has no name"
  | .malformedVariable => text "variable name must not contain '$' or '.'"
  | .repeatedVariable => text "variable declared more than once"
  | .noVariableValue => text "variable has no value"
  | .unpairedKeys => text "keys and values must come in pairs"
  | .keyNotString shown => text "key " ++ shown ++ text " is not a string"
  | .unequalLengths keys values =>
    Text.ofNat keys ++ text " keys but " ++ Text.ofNat values ++ text " values"
  | .repeatedKey => text "key declared more than once"
  | .noStage i => text "stage " ++ Text.ofNat i ++ text " is nil"
  | .noProjectedName => text "projected field name must not be empty"
  | .noProjection => text "projection expression must not be nil"
  | .repeatedOutput => text "output field declared more than once"
  | .emptyProjection => text "projection must name at least one field"
  | .noOperand => text "accumulator operand must not be nil"
  | .noFieldName => text "field name must not be empty"
  | .noOutputName => text "accumulator output name must not be empty"
  | .outputIsKey => text "output field has the name of a group key"
  | .emptyReference => text "empty field reference"
  | .notExposed fields => text "field is not exposed by the previous stage " ++ fields.display
  | .hidden fields => text "field is hidden by the scope binding " ++ fields.display
  | .unbound => text "no enclosing scope binds this variable"
  | .tooDeep limit =>
    text "expression nesting depth limit exceeded (max " ++ Text.ofInt limit ++ text ")"
  | .stated _ message => message

end Cause

/-- An error of building or compiling; it ends the call that meets it. -/
structure CompileError where
  cause : Cause
  name : Text := []
  node : Text := []
deriving DecidableEq, Repr

namespace CompileError

def kind (e : CompileError) : ErrorKind := e.cause.kind

/-- The full text: kind, cause, quoted name and node. -/
def message (e : CompileError) : Text :=
  let named :=
    if e.name = [] then e.cause.message
    else e.cause.message ++ text " (name=" ++ Text.quoted e.name ++ text ")"
  let placed := if e.node = [] then named else named ++ text " in " ++ e.node
  e.kind.name ++ text ": " ++ placed

/-- Attributes the error to a node unless it already names one. -/
def inNode (node : Text) (e : CompileError) : CompileError :=
  if e.node = [] then { e with node := node } else e

end CompileError

end ScopedAggregation
