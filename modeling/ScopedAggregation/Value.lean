import ScopedAggregation.Number.Binary
import ScopedAggregation.Text

namespace ScopedAggregation

/-- A node of a rendered document. -/
inductive Value where
  | null
  | bool (b : Bool)
  | int (i : Int64)
  | double (x : Double)
  | string (s : Text)
  | list (items : List Value)
  | document (entries : List (Text × Value))
deriving Repr, Inhabited

/-- The entries of a document in order. -/
abbrev Entries := List (Text × Value)

namespace Entries

/-- Stores a value under a key. Replacing a key keeps its position. -/
def set (key : Text) (v : Value) : Entries → Entries
  | [] => [(key, v)]
  | (k, w) :: rest => if k = key then (k, v) :: rest else (k, w) :: set key v rest

/-- The value stored under a key. -/
def get? (key : Text) : Entries → Option Value
  | [] => none
  | (k, v) :: rest => if k = key then some v else get? key rest

def keys (es : Entries) : List Text := es.map (·.1)

/-- Stores all pairs one after another. -/
def ofList (pairs : List (Text × Value)) : Entries :=
  pairs.foldl (fun es (k, v) => set k v es) []

end Entries

/-- The kinds of values. -/
inductive ValueKind where
  | null
  | bool
  | int
  | double
  | string
  | list
  | document
deriving DecidableEq, Repr

namespace ValueKind

/-- All kinds in their standard order. -/
def all : List ValueKind := [.null, .bool, .int, .double, .string, .list, .document]

def name : ValueKind → Text
  | .null => text "null"
  | .bool => text "bool"
  | .int => text "int"
  | .double => text "double"
  | .string => text "string"
  | .list => text "list"
  | .document => text "document"

/-- The name of the kind at a position of the standard order. -/
def nameAt (i : Int) : Text :=
  if i < 0 then text "unknown" else ((all[i.toNat]?).map name).getD (text "unknown")

end ValueKind

/-- A value was used as if it were of another kind. -/
structure KindMismatch where
  actual : ValueKind
  expected : ValueKind
deriving DecidableEq, Repr

def KindMismatch.message (m : KindMismatch) : Text :=
  m.actual.name ++ text " value used as " ++ m.expected.name

namespace Value

def kind : Value → ValueKind
  | .null => .null
  | .bool _ => .bool
  | .int _ => .int
  | .double _ => .double
  | .string _ => .string
  | .list _ => .list
  | .document _ => .document

def asBool : Value → Except KindMismatch Bool
  | .bool b => .ok b
  | v => .error ⟨v.kind, .bool⟩

def asInt : Value → Except KindMismatch Int64
  | .int i => .ok i
  | v => .error ⟨v.kind, .int⟩

def asDouble : Value → Except KindMismatch Double
  | .double x => .ok x
  | v => .error ⟨v.kind, .double⟩

def asString : Value → Except KindMismatch Text
  | .string s => .ok s
  | v => .error ⟨v.kind, .string⟩

def asList : Value → Except KindMismatch (List Value)
  | .list items => .ok items
  | v => .error ⟨v.kind, .list⟩

def asDocument : Value → Except KindMismatch Entries
  | .document entries => .ok entries
  | v => .error ⟨v.kind, .document⟩

/-- A document with a single key. -/
def doc (key : Text) (v : Value) : Value := .document [(key, v)]

mutual

/-- Equality of values: the order of keys matters, and an integer never equals a double. -/
def equal : Value → Value → Bool
  | .null, .null => true
  | .bool a, .bool b => a = b
  | .int a, .int b => a = b
  | .double a, .double b => a.numEq b
  | .string a, .string b => a = b
  | .list a, .list b => equalLists a b
  | .document a, .document b => equalEntries a b
  | _, _ => false

def equalLists : List Value → List Value → Bool
  | [], [] => true
  | v :: vs, w :: ws => equal v w && equalLists vs ws
  | _, _ => false

def equalEntries : List (Text × Value) → List (Text × Value) → Bool
  | [], [] => true
  | (k, v) :: es, (l, w) :: fs => k = l && equal v w && equalEntries es fs
  | _, _ => false

end

end Value

/-- A string that would be read as a field path or a variable when it stands in a document. -/
def isReference (s : Text) : Bool := Text.startsWith [Ascii.dollar] s

/-- A whole double from `-2 ^ 63` to `2 ^ 63` becomes an integer. -/
def Value.ofDouble (x : Double) : Value :=
  match x.toInt64? with
  | some i => .int i
  | none => .double x

end ScopedAggregation
