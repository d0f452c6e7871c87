import ScopedAggregation.Definition.Failure
import ScopedAggregation.Http
import ScopedAggregation.Store

namespace ScopedAggregation.Service

open Http (Response)

/-- What an error means to a client. -/
inductive Status where
  | invalidArgument
  | notFound
  | alreadyExists
  | internal
deriving DecidableEq, Repr

namespace Status

def code : Status → Nat
  | .invalidArgument => 400
  | .notFound => 404
  | .alreadyExists => 409
  | .internal => 500

def name : Status → Text
  | .invalidArgument => text "INVALID_ARGUMENT"
  | .notFound => text "NOT_FOUND"
  | .alreadyExists => text "ALREADY_EXISTS"
  | .internal => text "INTERNAL"

end Status

/-- An error, with the text of its details, if it has any. -/
def refusal (status : Status) (message : Text) (details : Option Text := none) : Response :=
  .json status.code <| Json.object [(text "error", Json.object <|
    [(text "code", Text.ofNat status.code)]
      ++ (match details with
        | some d => [(text "details", d)]
        | none => [])
      ++ [(text "message", Json.string message), (text "status", Json.string status.name)])]

def invalid (message : Text) : Response := refusal .invalidArgument message

def storeRefusal (e : StoreError) : Response :=
  match e with
  | .notFound _ => refusal .notFound e.message
  | .alreadyExists _ => refusal .alreadyExists e.message
  | _ => refusal .internal e.message

/-- The kind of a compile error, and its name and node if it has them. -/
def errorDetails (e : CompileError) : Text :=
  Json.object <|
    [(text "kind", Json.string e.kind.name)]
      ++ StoredDefinition.unlessEmpty "name" e.name ++ StoredDefinition.unlessEmpty "node" e.node

def compileRefusal (e : Definition.Failure) : Response :=
  refusal .invalidArgument e.message (e.compileError?.map errorDetails)

/-- A document that JSON cannot hold is an error of the service. -/
def unencodable (e : EncodeError) : Response :=
  .plain 500 (text "json: error calling MarshalJSON for type *types.Value: " ++ e.message)

/-- A stored definition, without an empty description and without empty labels. -/
def definitionJson (d : StoredDefinition) : Text :=
  Json.object <|
    [(text "createTime", Json.string d.created.stamp)]
      ++ StoredDefinition.unlessEmpty "description" d.description
      ++ StoredDefinition.labelMember d.labels
      ++ [(text "name", Json.string d.name), (text "revisionId", Json.string d.revision),
        (text "source", Json.string d.source), (text "updateTime", Json.string d.updated.stamp)]

def definitionAnswer (d : StoredDefinition) : Response := .json 200 (definitionJson d)

def definitionsAnswer (ds : List StoredDefinition) : Response :=
  .json 200 (Json.object [(text "definitions", Json.array (ds.map definitionJson))])

def deletedAnswer (name : Text) : Response :=
  .json 200 (Json.object [(text "deleted", Json.bool true), (text "name", Json.string name)])

/-- A document, and the definition that it comes from, if it is stored. -/
def documentAnswer (of : Option StoredDefinition) (v : Value) : Response :=
  match v.encode with
  | .error e => unencodable e
  | .ok s =>
    .json 200 <| Json.object <|
      [(text "document", s)]
        ++ match of with
          | some d =>
            [(text "name", Json.string d.name), (text "revisionId", Json.string d.revision)]
          | none => []

def healthAnswer (count : Nat) : Response :=
  .json 200 <| Json.object
    [(text "definitions", Text.ofNat count), (text "status", Json.string (text "ok"))]

end ScopedAggregation.Service
