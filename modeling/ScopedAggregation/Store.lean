import ScopedAggregation.Store.Error
import ScopedAggregation.Store.Record

namespace ScopedAggregation

/-- A database file: its entries by key, whether it is open, and why it takes no writes, if it does
not. -/
structure Database where
  entries : Table Text := []
  isOpen : Bool := true
  fault : Option Text := none
deriving DecidableEq, Repr

/-- Definitions in memory, and the database behind them, if any. -/
structure Store where
  definitions : Table StoredDefinition := []
  database : Option Database := none
deriving DecidableEq, Repr

/-- What a change is marked with: the revision that a new source gets, and the present moment. -/
structure Stamp where
  revision : Text
  time : Instant
deriving DecidableEq, Repr, Inhabited

/-- A call of a store: it gives a result or fails. What it changed before it failed stays. -/
abbrev Store.Call (α : Type) := ExceptT StoreError (StateM Store) α

namespace Store

def size (s : Store) : Nat := s.definitions.length

/-- All definitions in order of their names. -/
def list (s : Store) : List StoredDefinition := s.definitions.map (·.2)

def get (name : Text) (s : Store) : Except StoreError StoredDefinition :=
  match s.definitions.get? name with
  | some d => .ok d
  | none => .error (.notFound name)

/-- What a call sees in the store. -/
def look {α : Type} (f : Store → Except StoreError α) : Call α :=
  ExceptT.mk fun s => (f s, s)

/-- Changes the entries of the database, if there is one; it has to be open and to take writes. -/
def persist (change : Table Text → Table Text) : Call Unit := do
  let s ← getThe Store
  match s.database with
  | none => pure ()
  | some db =>
    if !db.isOpen then throw .closed
    else match db.fault with
      | some reason => throw (.unwritten reason)
      | none => set { s with database := some { db with entries := change db.entries } }

/-- The greatest length of a key in the database. -/
def maxKeyLength : Nat := 32768

/-- A definition can be written only under a key that the database takes. -/
def checkKey (key : Text) (s : Store) : Except StoreError Unit :=
  match s.database with
  | some db =>
    if !db.isOpen then .ok ()
    else if key.isEmpty then .error .keyRequired
    else if maxKeyLength < key.length then .error .keyTooLarge
    else .ok ()
  | none => .ok ()

/-- A definition can be written only if its times have a form. -/
def checkTimes (d : StoredDefinition) (s : Store) : Except StoreError Unit :=
  if s.database.isSome && !(d.created.hasStamp && d.updated.hasStamp) then .error .yearRange
  else .ok ()

/-- Stores a definition under its name, in the database first. -/
def save (d : StoredDefinition) : Call StoredDefinition := do
  look (checkTimes d)
  look (checkKey d.name)
  persist (Table.insert d.name d.encode)
  modify fun s => { s with definitions := s.definitions.insert d.name d }
  pure d

/-- A new definition needs a name that is not taken. -/
def checkFree (name : Text) (s : Store) : Except StoreError Unit :=
  if s.definitions.contains name then .error (.alreadyExists name) else .ok ()

/-- A new definition. -/
def fresh (stamp : Stamp) (name source description : Text) (labels : Labels) : StoredDefinition :=
  { name := name, description := description, source := source, revision := stamp.revision,
    created := stamp.time, updated := stamp.time, labels := labels }

/-- Adds a definition under a name that is not taken. -/
def create (stamp : Stamp) (name source description : Text) (labels : Labels) :
    Call StoredDefinition := do
  look fun _ => DefinitionName.check name
  look (checkFree name)
  save (fresh stamp name source description labels)

/-- The definition with a new source and a new description; an empty one leaves the old. -/
def revised (stamp : Stamp) (source description : Text) (d : StoredDefinition) :
    StoredDefinition :=
  let d := if source.isEmpty || source = d.source then d
    else { d with source := source, revision := stamp.revision }
  let d := if description.isEmpty then d else { d with description := description }
  { d with updated := stamp.time }

/-- Replaces the source and the description of a definition. -/
def update (stamp : Stamp) (name source description : Text) : Call StoredDefinition := do
  let d ← look (get name)
  save (revised stamp source description d)

/-- Creates or replaces a definition; the flag tells whether it tried to create it. -/
def put (stamp : Stamp) (name source : Text) :
    StateM Store (Except StoreError StoredDefinition × Bool) := do
  match ← (update stamp name source []).run with
  | .ok d => pure (.ok d, false)
  | .error (.notFound _) =>
    let result ← (create stamp name source [] none).run
    pure (result, true)
  | .error e => pure (.error e, false)

def delete (name : Text) : Call Unit := do
  let _ ← look (get name)
  persist (Table.erase name)
  modify fun s => { s with definitions := s.definitions.erase name }

/-- Closes the database. -/
def close (s : Store) : Store :=
  { s with database := s.database.map fun db => { db with isOpen := false } }

/-- Reads the definitions of a database, in order of its keys. Each is kept under its own name. -/
def load : Table StoredDefinition → List (Text × Text) → Except StoreError (Table StoredDefinition)
  | t, [] => .ok t
  | t, (key, data) :: rest =>
    match StoredDefinition.decode data with
    | some d => load (t.insert d.name d) rest
    | none => .error (.undecodable key)

/-- The store over a database file with the given entries. -/
def ofEntries (entries : Table Text) : Except StoreError Store := do
  let definitions ← load [] entries
  pure { definitions := definitions, database := some { entries := entries } }

/-- What opening the database of a store gives; it takes a write. Without one there is nothing to
open. -/
def opened (s : Store) : Except StoreError Store :=
  match s.database with
  | none => .ok s
  | some db =>
    match db.fault with
    | some reason => .error (.unwritten reason)
    | none => ofEntries db.entries

/-- Closes the database and opens it anew. -/
def reopen : Call Unit := do
  modify close
  set (← look opened)

end Store

end ScopedAggregation
