import ScopedAggregation.Path
import ScopedAggregation.Text.Case
import ScopedAggregation.Watch.Debouncer

namespace ScopedAggregation

/-- What can happen to a file. -/
inductive FileChange where
  | create
  | write
  | remove
  | rename
  | chmod
deriving DecidableEq, Repr

/-- Something happened to the file of a path. -/
structure FileEvent where
  path : Text
  changes : List FileChange
deriving DecidableEq, Repr

/-- The endings of definition files. -/
def definitionEndings : List Text := [text ".yaml", text ".yml", text ".json"]

namespace FileEvent

/-- A change of access rights alone. -/
def onlyRights (e : FileEvent) : Bool := !e.changes.isEmpty && e.changes.all (· = .chmod)

/-- Whether a reload is due: a visible file with one of the endings, in any case, has changed. -/
def isRelevant (endings : List Text) (e : FileEvent) : Bool :=
  let name := Path.base e.path
  !e.onlyRights && !Path.isHidden name
    && (endings.map Text.lowerCase).any (· = Text.lowerCase (Path.ending name))

end FileEvent

/-- Why a directory cannot be watched. -/
inductive WatchError where
  | missing (path reason : Text)
  | notDirectory (path : Text)
  | running
deriving DecidableEq, Repr

def WatchError.message : WatchError → Text
  | .missing path reason => text "watch " ++ path ++ text ": stat " ++ path ++ text ": " ++ reason
  | .notDirectory path => text "watch " ++ path ++ text ": not a directory"
  | .running => text "watcher already running"

/-- A watcher: the endings that matter, the reload that waits, and whether it is running. -/
structure Watcher where
  endings : List Text := definitionEndings
  debouncer : Debouncer Unit := {}
  isRunning : Bool := false
deriving DecidableEq, Repr

namespace Watcher

/-- A watcher with the given endings; none given means those of definitions. -/
def ofEndings (endings : List Text) : Watcher :=
  { endings := if endings.isEmpty then definitionEndings else endings }

/-- Starts a watcher, which can be done once. -/
def start (w : Watcher) : Except WatchError Watcher :=
  if w.isRunning then .error .running else .ok { w with isRunning := true }

/-- An event puts off the reload if it matters. -/
def observe (e : FileEvent) (w : Watcher) : Watcher :=
  if e.isRelevant w.endings then { w with debouncer := w.debouncer.trigger () } else w

/-- A burst of events has settled: whether a reload is due now. -/
def settle (events : List FileEvent) (w : Watcher) : Bool × Watcher :=
  let w := events.foldl (fun w e => w.observe e) w
  let (due, d) := w.debouncer.fire
  (due.isSome, { w with debouncer := d })

end Watcher

end ScopedAggregation
