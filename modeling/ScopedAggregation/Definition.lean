import ScopedAggregation.Definition.Quoting
import ScopedAggregation.Definition.Stages

namespace ScopedAggregation

/-- What a definition compiles: one expression, or stages. -/
inductive Body where
  | expression (e : Expr)
  | stages (stages : List Stage)

/-- A definition that has been read. -/
structure Definition where
  input : Fields := {}
  body : Body

namespace Definition

open Yaml (Node Document)

def isPipeline (d : Definition) : Bool :=
  match d.body with
  | .expression _ => false
  | .stages _ => true

/-- Compiles a definition: an expression to one document, stages to a list of stage documents. -/
def compile (c : Compiler) (d : Definition) : Compiling PipelineError Value :=
  match d.body with
  | .stages stages => Pipeline.render c { input := d.input, stages := stages.map some }
  | .expression e => fun log =>
    match c.run (some e) (Context.ofInput d.input) log with
    | (.ok v, log) => (.ok v, log)
    | (.error e, log) => (.error { error := e }, log)

/-- The names of input fields; a leading dollar sign does not count. -/
def readNames : List Node → Except Rejection (List Text)
  | [] => .ok []
  | node :: rest =>
    match node with
    | .scalar _ _ _ (b :: s) => do
      let names ← readNames rest
      pure ((if b = Ascii.dollar then s else b :: s) :: names)
    | node => .error (faultAt node .inputName)

/-- The declared fields: a sequence of names, or a mapping of names to field references. -/
def readInput (node : Node) : Except Rejection Fields :=
  match node with
  | .sequence _ items => (readNames items).map .ofNames
  | .mapping _ entries =>
    (aliasedFields (fun name value => faultAt value (.inputTarget name)) entries).map .ofList
  | node => .error (faultAt node .inputShape)

/-- The parts of a definition as they are found. -/
structure Parts where
  input : Fields := {}
  expression : Option Node := none
  stages : Option Node := none

/-- Goes through the keys of a definition; of equal ones the last counts. -/
def readParts : Parts → List (Node × Node) → Except Rejection Parts
  | parts, [] => .ok parts
  | parts, (k, node) :: rest =>
    if k.value = text "input" then do
      let input ← readInput node
      readParts { parts with input := input } rest
    else if k.value = text "expression" then readParts { parts with expression := some node } rest
    else if k.value = text "stages" then readParts { parts with stages := some node } rest
    else .error (faultAt k (.unknownKey k.value))

/-- Reads the first document of a source, formulas quoted. -/
def readSource (what : SourceKind) (source : Text) : Except Rejection Document :=
  if maxSourceSize < source.length then .error { fault := .tooLarge what source.length }
  else match Yaml.read (quoteFormulas source) with
    | .error e => .error { fault := .notYaml e }
    | .ok none => .error { fault := .empty what }
    | .ok (some d) => .ok d

/-- Reads a definition. -/
def parse (source : Text) : Except Rejection Definition := do
  let d ← readSource .definition source
  match d.root with
  | .mapping _ entries =>
    let parts ← readParts {} entries
    match parts.expression, parts.stages with
    | some _, some _ => .error { fault := .bothForms }
    | some node, none =>
      let e ← readRootExpr d node
      pure { input := parts.input, body := .expression e }
    | none, some node =>
      let stages ← readStages d node
      pure { input := parts.input, body := .stages stages }
    | none, none => .error { fault := .neitherForm }
  | root => .error (faultAt root .notMapping)

/-- Reads a source that is one bare expression. -/
def parseExpression (source : Text) : Except Rejection Expr := do
  let d ← readSource .expression source
  readRootExpr d d.root

end Definition

end ScopedAggregation
