import ScopedAggregation.Definition

namespace ScopedAggregation.Definition

/-- Why a source has no document: it is no definition, or its definition does not compile. -/
inductive Failure where
  | rejected (r : Rejection)
  | uncompiled (e : PipelineError)

namespace Failure

def message : Failure → Text
  | .rejected r => r.message
  | .uncompiled e => e.message

/-- The error of building or compiling that it comes from, if it does. -/
def compileError? : Failure → Option CompileError
  | .rejected r => r.fault.compileError?
  | .uncompiled e => some e.error

end Failure

/-- What compiling a definition comes to, and the attempts that it took. -/
def outcome (c : Compiler) (d : Definition) : Except Failure Value × List Attempt :=
  let (result, attempts) := (d.compile c).run []
  (result.mapError .uncompiled, attempts)

/-- What a source comes to. -/
def outcomeOf (c : Compiler) (source : Text) : Except Failure Value × List Attempt :=
  match parse source with
  | .ok d => d.outcome c
  | .error r => (.error (.rejected r), [])

end ScopedAggregation.Definition
