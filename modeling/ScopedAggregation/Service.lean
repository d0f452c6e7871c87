import ScopedAggregation.Definition.Failure
import ScopedAggregation.Log
import ScopedAggregation.Metrics
import ScopedAggregation.Store.Shared

namespace ScopedAggregation

/-- A definition that was parsed, and the revision whose source it comes from. -/
structure ParsedDefinition where
  revision : Text
  definition : Definition

/-- What requests share: the store, the parsed forms that are remembered, and the names of the
definitions that came from the directory. -/
structure ServiceState where
  shared : SharedStore := {}
  parsed : Table ParsedDefinition := []
  fromDirectory : Table Unit := []
  metrics : Option Metrics := none
  log : List LogLine := []

/-- What does not change: the compiler, and the clock that stamps changes. -/
structure Service where
  compiler : Compiler := {}
  clock : Clock

namespace Service

/-- A step or several of a request. -/
abbrev Request := Program ServiceState

/-- A call of the store. -/
def onStore {α : Type} (p : Program SharedStore α) : Request α :=
  p.within (·.shared) fun s shared => { s with shared := shared }

def logged (l : LogLine) : Request Unit := .modify fun s => { s with log := s.log ++ [l] }

/-- Notes attempts to compile: a line for each that has one, and the counters. -/
def noted (attempts : List Attempt) : Request Unit :=
  .modify fun s =>
    { s with
      log := s.log ++ attempts.filterMap Attempt.logLine?
      metrics := s.metrics.map fun m => attempts.foldl Metrics.observe m }

/-- Sets the counter of definitions. -/
def countDefinitions : Request Unit := do
  let n ← onStore SharedStore.size
  .modify fun s => { s with metrics := s.metrics.map fun m => { m with definitions := n } }

/-- Remembers the parsed form of a stored definition. -/
def remember (d : StoredDefinition) (definition : Definition) : Request Unit :=
  .modify fun s => { s with parsed := s.parsed.insert d.name ⟨d.revision, definition⟩ }

/-- Forgets what is remembered under a name. -/
def forget (name : Text) : Request Unit :=
  .modify fun s =>
    { s with parsed := s.parsed.erase name, fromDirectory := s.fromDirectory.erase name }

/-- The state of a service that starts on a store. -/
def start (store : SharedStore) (withMetrics : Bool) : ServiceState :=
  { shared := store
    metrics := if withMetrics then some { definitions := store.store.size } else none }

/-- The parsed form of a stored definition: the one remembered if it has the same revision. -/
def parsedForm (d : StoredDefinition) : Request (Except Definition.Rejection Definition) := do
  match ← .read fun s => s.parsed.get? d.name with
  | some p => if p.revision = d.revision then pure (.ok p.definition) else fresh
  | none => fresh
where
  fresh : Request (Except Definition.Rejection Definition) :=
    match Definition.parse d.source with
    | .error r => pure (.error r)
    | .ok definition => do
      remember d definition
      pure (.ok definition)

variable (srv : Service)

/-- Compiles a stored definition. -/
def compileStored (d : StoredDefinition) : Request (Except Definition.Failure Value) := do
  match ← parsedForm d with
  | .error r => pure (.error (.rejected r))
  | .ok definition =>
    let (result, attempts) := definition.outcome srv.compiler
    noted attempts
    pure result

/-- Compiles the stored definition of a name. -/
def compileDefinition (name : Text) :
    Request (Except StoreError (StoredDefinition × Except Definition.Failure Value)) := do
  match ← onStore (SharedStore.get name) with
  | .error e => pure (.error e)
  | .ok d =>
    let result ← srv.compileStored d
    pure (.ok (d, result))

/-- Compiles a source that is not stored. -/
def compileSource (source : Text) : Request (Except Definition.Failure Value) := do
  let (result, attempts) := Definition.outcomeOf srv.compiler source
  noted attempts
  pure result

/-- Stores a new definition whose source was parsed. -/
def createDefinition (name source description : Text) (labels : Labels)
    (definition : Definition) : Request (Except StoreError StoredDefinition) := do
  match ← onStore (SharedStore.create srv.clock name source description labels) with
  | .error e => pure (.error e)
  | .ok d =>
    remember d definition
    countDefinitions
    logged (.of .info "created definition" [("name", .text name), ("revision", .text d.revision)])
    pure (.ok d)

/-- Changes the source, if it was parsed, and the description of a definition. -/
def updateDefinition (name source description : Text) (definition : Option Definition) :
    Request (Except StoreError StoredDefinition) := do
  match ← onStore (SharedStore.update srv.clock name source description) with
  | .error e => pure (.error e)
  | .ok d =>
    match definition with
    | some definition => remember d definition
    | none => pure ()
    logged (.of .info "updated definition" [("name", .text name), ("revision", .text d.revision)])
    pure (.ok d)

def deleteDefinition (name : Text) : Request (Except StoreError Unit) := do
  match ← onStore (SharedStore.delete name) with
  | .error e => pure (.error e)
  | .ok () =>
    forget name
    countDefinitions
    logged (.of .info "deleted definition" [("name", .text name)])
    pure (.ok ())

end Service

end ScopedAggregation
