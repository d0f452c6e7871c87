import ScopedAggregation.Pipeline.Group
import ScopedAggregation.Pipeline.Project

namespace ScopedAggregation

/-- One step of a pipeline. -/
inductive Stage where
  | filter (cond : Option Expr)
  | group (g : GroupStage)
  | project (p : ProjectStage)

namespace Stage

def name : Stage → Text
  | .filter _ => text "$match"
  | .group _ => GroupStage.nodeName
  | .project _ => ProjectStage.nodeName

/-- The first fault of the stage's construction. -/
def error : Stage → Option CompileError
  | .filter _ => none
  | .group g => g.error
  | .project p => p.error

/-- The fields visible to the next stage; a filter keeps the shape of its input. -/
def fields? : Stage → Option Fields
  | .filter _ => none
  | .group g => some g.fields
  | .project p => some p.fields

def render (c : Compiler) (ctx : Context) : Stage → Compiling CompileError Value
  | .filter none => throw { cause := .noCondition, node := text "$match" }
  | .filter (some cond) => do
    let v ← c.run (some cond) ctx
    pure (Value.doc (text "$match") (Value.doc (text "$expr") v))
  | .group g => g.render c ctx
  | .project p => p.render c ctx

end Stage

/-- An error of rendering a pipeline, with the stage that it arose in. -/
structure PipelineError where
  stage : Option (Nat × Text) := none
  error : CompileError
deriving DecidableEq

def PipelineError.message (e : PipelineError) : Text :=
  match e.stage with
  | none => e.error.message
  | some (i, name) =>
    text "stage " ++ Text.ofNat i ++ text " (" ++ name ++ text "): " ++ e.error.message

/-- Stages in order over a declared input; a stage may be missing. -/
structure Pipeline where
  input : Fields := {}
  stages : List (Option Stage)

namespace Pipeline

/-- Attributes the errors of a stage to it. -/
def inStage {α : Type} (i : Nat) (name : Text) (x : Compiling CompileError α) :
    Compiling PipelineError α := fun log =>
  match x log with
  | (.ok a, log) => (.ok a, log)
  | (.error e, log) => (.error ⟨some (i, name), e⟩, log)

/-- Renders stages from the given index on. -/
def renderStages (c : Compiler) (i : Nat) (ctx : Context) :
    List (Option Stage) → Compiling PipelineError (List Value)
  | [] => pure []
  | none :: _ => throw { error := { cause := .noStage i, node := text "pipeline" } }
  | some s :: rest => do
    let v ← inStage i s.name (s.render c ctx)
    let next := match s.fields? with
      | some fields => Context.restricted fields
      | none => ctx
    let vs ← renderStages c (i + 1) next rest
    pure (v :: vs)

/-- Renders all stages into a list of stage documents. -/
def render (c : Compiler) (p : Pipeline) : Compiling PipelineError Value := do
  let vs ← renderStages c 0 (Context.ofInput p.input) p.stages
  pure (.list vs)

end Pipeline

end ScopedAggregation
