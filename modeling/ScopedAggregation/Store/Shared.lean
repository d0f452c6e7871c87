import ScopedAggregation.Program
import ScopedAggregation.Store

namespace ScopedAggregation

/-- The stamps that writing steps get, by their number. -/
abbrev Clock := Nat → Stamp

/-- A store and the number of writing steps so far. -/
structure SharedStore where
  store : Store := {}
  ticks : Nat := 0
deriving DecidableEq, Repr

namespace SharedStore

/-- A call of the store in one step. -/
def call {α : Type} (c : Store.Call α) (s : SharedStore) : Except StoreError α × SharedStore :=
  let (result, store) := c.run.run s.store
  (result, { s with store := store })

/-- A call of the store that gets a stamp, in one step. -/
def stamped {α : Type} (clock : Clock) (c : Stamp → Store.Call α) (s : SharedStore) :
    Except StoreError α × SharedStore :=
  call (c (clock s.ticks)) { s with ticks := s.ticks + 1 }

def get (name : Text) : Program SharedStore (Except StoreError StoredDefinition) :=
  .read fun s => s.store.get name

def list : Program SharedStore (List StoredDefinition) := .read fun s => s.store.list

def size : Program SharedStore Nat := .read fun s => s.store.size

def create (clock : Clock) (name source description : Text) (labels : Labels) :
    Program SharedStore (Except StoreError StoredDefinition) :=
  .atomic (stamped clock (Store.create · name source description labels))

def update (clock : Clock) (name source description : Text) :
    Program SharedStore (Except StoreError StoredDefinition) :=
  .atomic (stamped clock (Store.update · name source description))

/-- Creates or replaces a definition; the flag tells whether it tried to create it. -/
def put (clock : Clock) (name source : Text) :
    Program SharedStore (Except StoreError StoredDefinition × Bool) := do
  match ← update clock name source [] with
  | .ok d => pure (.ok d, false)
  | .error (.notFound _) =>
    let result ← create clock name source [] none
    pure (result, true)
  | .error e => pure (.error e, false)

def delete (name : Text) : Program SharedStore (Except StoreError Unit) :=
  .atomic (call (Store.delete name))

end SharedStore

end ScopedAggregation
