import ScopedAggregation.Expr.Compile

namespace ScopedAggregation

/-- A projection: its included fields, its computed outputs in order, and the first fault of its
construction. -/
structure ProjectStage where
  included : Fields
  computed : List (Text × Expr) := []
  error : Option CompileError := none

namespace ProjectStage

def nodeName : Text := text "$project"

/-- A projection that includes the given fields. -/
def including (fields : List Field) : ProjectStage := { included := .ofList fields }

/-- The first segment of a path. -/
def head (path : Text) : Text := (Text.splitHead path).1

/-- Whether the output is there already, or a dotted inclusion produces it. -/
def hasOutput (output : Text) (p : ProjectStage) : Bool :=
  p.included.contains output || p.included.toList.any (fun f => head f.name = output)
    || p.computed.any (·.1 = output)

/-- Adds a computed output. -/
def compute (output : Text) (value : Option Expr) (p : ProjectStage) : ProjectStage :=
  match p.error with
  | some _ => p
  | none =>
    if output = [] then { p with error := some { cause := .noProjectedName, node := nodeName } }
    else match value with
      | none =>
        { p with error := some { cause := .noProjection, name := output, node := nodeName } }
      | some value =>
        if p.hasOutput output then
          { p with error := some { cause := .repeatedOutput, name := output, node := nodeName } }
        else { p with computed := p.computed ++ [(output, value)] }

/-- The fields that the next stage sees: `_id`, the top-level fields of the inclusions and the
computed outputs. -/
def fields (p : ProjectStage) : Fields :=
  .ofList (Field.ofName (text "_id") :: p.included.toList.map (fun f => Field.ofName (head f.name))
    ++ p.computed.map fun (output, _) => Field.ofName output)

/-- A reference to the field's own name is written as an inclusion. -/
def inclusion (f : Field) (reference : Value) : Value :=
  match reference with
  | .string s => if s = Ascii.dollar :: f.name then .int 1 else reference
  | _ => reference

def renderIncluded (c : Compiler) (ctx : Context) :
    List Field → Compiling CompileError (List (Text × Value))
  | [] => pure []
  | f :: fs => do
    let v ← c.run (some (.field f.target)) ctx
    let rest ← renderIncluded c ctx fs
    pure ((f.name, inclusion f v) :: rest)

def renderComputed (c : Compiler) (ctx : Context) :
    List (Text × Expr) → Compiling CompileError (List (Text × Value))
  | [] => pure []
  | (output, e) :: rest => do
    let v ← c.run (some e) ctx
    let rest ← renderComputed c ctx rest
    pure ((output, v) :: rest)

def render (c : Compiler) (ctx : Context) (p : ProjectStage) : Compiling CompileError Value :=
  match p.error with
  | some e => throw e
  | none =>
    if p.included.size = 0 && p.computed.isEmpty then
      throw { cause := .emptyProjection, node := nodeName }
    else do
      let included ← renderIncluded c ctx p.included.toList
      let computed ← renderComputed c ctx p.computed
      pure (Value.doc nodeName (.document (included ++ computed)))

end ProjectStage

end ScopedAggregation
