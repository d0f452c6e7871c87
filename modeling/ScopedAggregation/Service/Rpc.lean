import ScopedAggregation.Service

namespace ScopedAggregation

/-- The double nearest to an integer. -/
def Double.ofInt (i : Int) : Double :=
  .ofMagnitude (i < 0) (BinaryFormat.double.ofBinary i.natAbs 0)

namespace Rpc

/-- Members by name. -/
abbrev Message := Table Plain

/-- The text of a member; empty if it is none. -/
def textOf (name : String) (m : Message) : Text :=
  match m.get? (text name) with
  | some (.string s) => s
  | _ => []

mutual

/-- Data with a double for every integer. -/
def widen : Plain → Plain
  | .int i => .double (.ofInt i.toInt)
  | .list items => .list (widenItems items)
  | .map entries => .map (widenEntries entries)
  | p => p

def widenItems : List Plain → List Plain
  | [] => []
  | p :: ps => widen p :: widenItems ps

def widenEntries : List (Text × Plain) → List (Text × Plain)
  | [] => []
  | (k, p) :: ps => (k, widen p) :: widenEntries ps

end

/-- The calls. -/
inductive Method where
  | compile
  | validate
  | compileDefinition
deriving DecidableEq, Repr

def Method.name : Method → Text
  | .compile => text "Compile"
  | .validate => text "Validate"
  | .compileDefinition => text "CompileDefinition"

/-- What the failure of a call means to a client. -/
inductive Code where
  | invalidArgument
  | notFound
  | alreadyExists
  | resourceExhausted
  | internal
deriving DecidableEq, Repr

def Code.name : Code → Text
  | .invalidArgument => text "InvalidArgument"
  | .notFound => text "NotFound"
  | .alreadyExists => text "AlreadyExists"
  | .resourceExhausted => text "ResourceExhausted"
  | .internal => text "Internal"

/-- Why a call fails. -/
inductive Failure where
  | missing (member : Text)
  | store (e : StoreError)
  | definition (e : Definition.Failure)
  | unencodable (e : EncodeError)

namespace Failure

def code : Failure → Code
  | .missing _ => .invalidArgument
  | .store (.notFound _) => .notFound
  | .store (.alreadyExists _) => .alreadyExists
  | .store _ => .internal
  | .definition e =>
    match e, e.compileError?.map CompileError.kind with
    | _, some .depthExceeded => .resourceExhausted
    | .uncompiled _, some (.named _) => .internal
    | _, _ => .invalidArgument
  | .unencodable _ => .internal

def message : Failure → Text
  | .missing member => member ++ text " is required"
  | .store e => e.message
  | .definition e => e.message
  | .unencodable e => text "encode document: " ++ e.message

/-- The failure as the log shows it. -/
def display (e : Failure) : Text :=
  text "rpc error: code = " ++ e.code.name ++ text " desc = " ++ e.message

end Failure

/-- The response with a document, and with more members. -/
def documentMessage (v : Value) (more : Message) : Except Failure Message := do
  let s ← v.encode.mapError Failure.unencodable
  pure (more.foldl (fun m (k, p) => m.insert k p)
    [(text "document", widen v.toPlain), (text "json", .string s)])

end Rpc

/-- How calls are served: by which compiler, whether its work is noted, and whether calls are
logged. -/
structure RpcServer where
  compiler : Compiler := {}
  isNoted : Bool := true
  logsCalls : Bool := true

namespace RpcServer

open Service (Request)
open Rpc

variable (srv : RpcServer)

/-- What a source comes to. -/
def documentOf (source : Text) : Request (Except Failure Value) := do
  let (result, attempts) := Definition.outcomeOf srv.compiler source
  if srv.isNoted then Service.noted attempts
  pure (result.mapError .definition)

/-- The source in a message; there has to be one. -/
def sourceOf (m : Message) : Except Failure Text :=
  let source := Rpc.textOf "source" m
  if source.isEmpty then .error (.missing (text "source")) else .ok source

def compile (m : Message) : Request (Except Failure Message) :=
  match sourceOf m with
  | .error e => pure (.error e)
  | .ok source => do
    let result ← srv.documentOf source
    pure (result.bind fun v => documentMessage v [])

/-- Checks a source and tells whether it is a pipeline. -/
def validate (m : Message) : Request (Except Failure Message) :=
  match sourceOf m with
  | .error e => pure (.error e)
  | .ok source => do
    let result ← srv.documentOf source
    let isPipeline := match Definition.parse source with
      | .ok d => d.isPipeline
      | .error _ => false
    pure (result.map fun _ =>
      [(text "pipeline", .bool isPipeline), (text "valid", .bool true)])

def compileDefinition (m : Message) : Request (Except Failure Message) :=
  let name := Rpc.textOf "name" m
  if name.isEmpty then pure (.error (.missing (text "name")))
  else do
    match ← Service.onStore (SharedStore.get name) with
    | .error e => pure (.error (.store e))
    | .ok d =>
      let result ← srv.documentOf d.source
      pure (result.bind fun v =>
        documentMessage v [(text "name", .string d.name), (text "revisionId", .string d.revision)])

/-- The line that a call leaves. -/
def callLine (method : Rpc.Method) (result : Except Failure Message) : LogLine :=
  let name := ("method", LogValue.text (text "/aggexpr.v1.Compiler/" ++ method.name))
  match result with
  | .ok _ => .of .debug "grpc call" [name]
  | .error e =>
    .of .debug "grpc call failed"
      [name, ("code", .text e.code.name), ("error", .text e.display)]

/-- Serves a call. -/
def call (method : Rpc.Method) (m : Message) : Request (Except Failure Message) := do
  let result ← match method with
    | .compile => srv.compile m
    | .validate => srv.validate m
    | .compileDefinition => srv.compileDefinition m
  if srv.logsCalls then Service.logged (callLine method result)
  pure result

end RpcServer

end ScopedAggregation
