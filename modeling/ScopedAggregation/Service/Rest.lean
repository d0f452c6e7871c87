import ScopedAggregation.Service
import ScopedAggregation.Service.Answer
import ScopedAggregation.Service.Body
import ScopedAggregation.Service.Resource
import ScopedAggregation.Web.Page

namespace ScopedAggregation.Service

open Http (Response)

def badBody : Response := invalid (text "invalid request body")

def noSource : Response := invalid (text "source is required")

def badDefinition (r : Definition.Rejection) : Response :=
  invalid (text "invalid definition: " ++ r.message)

variable (srv : Service)

/-- Compiles the source in the body. -/
def answerCompile (r : Http.Request) : Request Response :=
  match DefinitionBody.ofRequest true r with
  | none => pure badBody
  | some body =>
    if body.source.isEmpty then pure noSource
    else do
      match ← srv.compileSource body.source with
      | .error e => pure (compileRefusal e)
      | .ok v => pure (documentAnswer none v)

/-- Creates the definition in the body under the name in the query. -/
def answerCreate (r : Http.Request) : Request Response :=
  let name := r.query "definitionId"
  if name.isEmpty then pure (invalid (text "definitionId query parameter is required"))
  else match DefinitionName.check name with
    | .error e => pure (invalid e.message)
    | .ok () =>
      match DefinitionBody.ofRequest false r with
      | none => pure badBody
      | some body =>
        if body.source.isEmpty then pure noSource
        else match Definition.parse body.source with
          | .error r => pure (badDefinition r)
          | .ok definition => do
            match ← srv.createDefinition name body.source body.description body.labels
                definition with
            | .error e => pure (storeRefusal e)
            | .ok d => pure (definitionAnswer d)

def answerList : Request Response := do
  let ds ← onStore SharedStore.list
  pure (definitionsAnswer ds)

def answerGet (name : Text) : Request Response := do
  match ← onStore (SharedStore.get name) with
  | .error e => pure (storeRefusal e)
  | .ok d => pure (definitionAnswer d)

/-- Changes a definition as the body says; what it does not say stays. -/
def answerUpdate (name : Text) (r : Http.Request) : Request Response :=
  match DefinitionBody.ofRequest false r with
  | none => pure badBody
  | some body =>
    let parsed : Except Definition.Rejection (Option Definition) :=
      if body.source.isEmpty then .ok none else (Definition.parse body.source).map some
    match parsed with
    | .error r => pure (badDefinition r)
    | .ok definition => do
      match ← srv.updateDefinition name body.source body.description definition with
      | .error e => pure (storeRefusal e)
      | .ok d => pure (definitionAnswer d)

def answerDelete (name : Text) : Request Response := do
  match ← deleteDefinition name with
  | .error e => pure (storeRefusal e)
  | .ok () => pure (deletedAnswer name)

/-- The answer by what became of a definition. -/
def compilationAnswer :
    Except StoreError (StoredDefinition × Except Definition.Failure Value) → Response
  | .error e => storeRefusal e
  | .ok (_, .error e) => compileRefusal e
  | .ok (d, .ok v) => documentAnswer (some d) v

def answerCompilation (name : Text) : Request Response := do
  let outcome ← srv.compileDefinition name
  pure (compilationAnswer outcome)

def answerHealth : Request Response := do
  let n ← onStore SharedStore.size
  pure (healthAnswer n)

def answerMetrics : Request Response := do
  let m ← .read fun s => s.metrics
  pure ⟨200, text "text/plain; version=0.0.4; charset=utf-8", (m.getD {}).render, none⟩

/-- The present moment. -/
def now : Request Instant := .read fun s => (srv.clock s.shared.ticks).time

def answerDashboard : Request Response := do
  let ds ← onStore SharedStore.list
  let t ← srv.now
  pure (.html 200 (Web.dashboard t ds).render)

/-- What became of a definition, for its page. -/
def shownResult : Except Definition.Failure Value → Web.Compiled
  | .error e =>
    .failed (match e.compileError? with
      | some c => c.kind.name
      | none => text "ParseError") e.message
  | .ok v =>
    match v.encodeIndented (text "  ") with
    | .ok s => .document s
    | .error e => .failed [] e.message

/-- The page of a name by what became of its definition. -/
def pageAnswer (t : Instant) (count : Nat) (name : Text) :
    Except StoreError (StoredDefinition × Except Definition.Failure Value) → Response
  | .error _ => .html 404 (Web.notFound count name).render
  | .ok (d, compiled) => .html 200 (Web.detail t count d (shownResult compiled)).render

def answerPage (name : Text) : Request Response := do
  let outcome ← srv.compileDefinition name
  let count ← onStore SharedStore.size
  let t ← srv.now
  pure (pageAnswer t count name outcome)

/-- Answers a request of a resource by a method that it answers. -/
def answerOf (resource : Resource) (method : Http.Method) (r : Http.Request) : Request Response :=
  match resource, method with
  | .compiler, _ => srv.answerCompile r
  | .definitions, .post => srv.answerCreate r
  | .definitions, _ => answerList
  | .definition name, .patch => srv.answerUpdate name r
  | .definition name, .delete => answerDelete name
  | .definition name, _ => answerGet name
  | .compilation name, _ => srv.answerCompilation name
  | .health, _ => answerHealth
  | .metrics, _ => answerMetrics
  | .dashboard, _ => srv.answerDashboard
  | .page name, _ => srv.answerPage name
  | .home, _ => pure (.redirect (text "/ui"))

/-- A byte of a path as messages show it. -/
def shownByte (b : UInt8) : Text :=
  if b = Ascii.plus || b = 0 then [b] else Html.escapeByte b

/-- There is nothing at the path of a request. -/
def nothingThere (r : Http.Request) : Response :=
  .plain 404 (text "Cannot " ++ r.method ++ [Ascii.space] ++ r.path.flatMap shownByte)

/-- Answers a request: the first resource of its path that answers its method does so. -/
def handle (r : Http.Request) : Request Response := do
  match r.method? with
  | none => pure (.plain 400 (text "Invalid http method"))
  | some method =>
    let hasMetrics ← .read fun s => s.metrics.isSome
    let resources := Resource.ofPath hasMetrics r.path
    let answer ← match resources.find? (·.answers method) with
      | some resource => srv.answerOf resource method r
      | none =>
        pure (if resources.isEmpty then nothingThere r
          else Response.plain 405 (text "Method Not Allowed"))
    pure (r.sent answer)

end ScopedAggregation.Service
