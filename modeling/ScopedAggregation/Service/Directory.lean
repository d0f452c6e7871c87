import ScopedAggregation.Path
import ScopedAggregation.Service
import ScopedAggregation.Watch

namespace ScopedAggregation

/-- Something in a directory: a file with its content, one that cannot be read, or a directory. -/
inductive DirectoryEntry where
  | file (content : Text)
  | unreadable (reason : Text)
  | directory
deriving DecidableEq, Repr

/-- The entries of a directory by name. -/
abbrev Directory := Table DirectoryEntry

/-- Why a directory cannot be loaded. -/
structure DirectoryError where
  reason : Text
deriving DecidableEq, Repr

def DirectoryError.message (e : DirectoryError) : Text :=
  text "reading definitions directory: " ++ e.reason

namespace Service

/-- What was seen of a directory: the names that have a file, and how many were loaded. -/
structure Loading where
  seen : Table Unit := []
  loaded : Nat := 0
deriving DecidableEq, Repr

/-- A visible file whose ending, in any case, is that of a definition. -/
def isDefinitionFile (file : Text) : Bool :=
  definitionEndings.any (· = Text.lowerCase (Path.ending file)) && !Path.isHidden file

def skipped (message : String) (file : Text) (error : Text) : Request Unit :=
  logged (.of .warn message [("file", .text file), ("error", .text error)])

variable (srv : Service)

/-- Stores the definition of a file; tells whether that went well. -/
def loadSource (file name source : Text) : Request Bool := do
  match Definition.parse source with
  | .error r =>
    skipped "could not parse definition file" file r.message
    pure false
  | .ok definition =>
    match ← onStore (SharedStore.put srv.clock name source) with
    | (.error e, _) =>
      skipped "could not store definition" file e.message
      pure false
    | (.ok d, created) =>
      remember d definition
      .modify fun s => { s with fromDirectory := s.fromDirectory.insert name () }
      logged (.of .debug "loaded definition"
        [("name", .text name), ("file", .text file), ("created", .bool created)])
      pure true

/-- Looks at one entry of a directory. -/
def loadEntry (l : Loading) (file : Text) (entry : DirectoryEntry) : Request Loading :=
  let name := Path.stem file
  if entry = .directory || !isDefinitionFile file then pure l
  else match DefinitionName.check name with
    | .error e => do
      skipped "skipping definition file" file e.message
      pure l
    | .ok () =>
      if l.seen.contains name then do
        logged (.of .warn "skipping duplicate definition file"
          [("file", .text file), ("name", .text name)])
        pure l
      else
        let l := { l with seen := l.seen.insert name () }
        match entry with
        | .file content => do
          let stored ← srv.loadSource file name content
          pure (if stored then { l with loaded := l.loaded + 1 } else l)
        | .unreadable reason => do
          skipped "could not read definition file" file reason
          pure l
        | .directory => pure l

def loadEntries (l : Loading) : List (Text × DirectoryEntry) → Request Loading
  | [] => pure l
  | (file, entry) :: rest => do
    let l ← srv.loadEntry l file entry
    loadEntries l rest

/-- Deletes a definition that has no file any more. -/
def removeStale (name : Text) : Request Unit := do
  let gone : Request Unit := do
    forget name
    logged (.of .info "removed definition" [("name", .text name)])
  match ← onStore (SharedStore.delete name) with
  | .ok () => gone
  | .error (.notFound _) => gone
  | .error e =>
    logged (.of .warn "could not delete definition"
      [("name", .text name), ("error", .text e.message)])

/-- Loads a directory and gives the number of definitions loaded. -/
def loadDirectory (dir : Directory) : Request Nat := do
  let l ← srv.loadEntries {} dir
  let stale ← .read fun s =>
    (s.fromDirectory.filter fun (name, _) => !l.seen.contains name).map (·.1)
  let _ ← Program.forEach removeStale stale
  countDefinitions
  logged (.of .info "loaded definitions"
    [("count", .int l.loaded), ("removed", .int stale.length)])
  pure l.loaded

end Service

end ScopedAggregation
