import ScopedAggregation.Number.Numeral
import ScopedAggregation.Table
import ScopedAggregation.Value.Json

namespace ScopedAggregation

/-- Decoded data. A map lists its keys in increasing order, each once. -/
inductive Plain where
  | null
  | bool (b : Bool)
  | string (s : Text)
  | int (i : Int64)
  | double (x : Double)
  | number (numeral : Text)
  | list (items : List Plain)
  | map (entries : List (Text × Plain))
  | value (v : Value)
  | other (shown : Text)
deriving Inhabited

namespace Plain

/-- A number text is an integer if it fits, else a double, else just a string. -/
def numberValue (numeral : Text) : Value :=
  match Numeral.readInt (some 10) numeral with
  | .ok i => .int (Int64.ofInt i)
  | .error _ =>
    match Numeral.readDouble numeral with
    | .ok x => .double x
    | .error _ => .string numeral

mutual

/-- The value of plain data. -/
def toValue : Plain → Value
  | .null => .null
  | .bool b => .bool b
  | .string s => .string s
  | .int i => .int i
  | .double x => Value.ofDouble x
  | .number numeral => numberValue numeral
  | .list items => .list (toValues items)
  | .map entries => .document (Table.ofList (toEntries entries))
  | .value v => v
  | .other shown => .string shown

def toValues : List Plain → List Value
  | [] => []
  | p :: ps => toValue p :: toValues ps

def toEntries : List (Text × Plain) → List (Text × Value)
  | [] => []
  | (k, p) :: ps => (k, toValue p) :: toEntries ps

end

mutual

/-- The JSON text, keys in increasing order. -/
def encode : Plain → Except EncodeError Text
  | .null => .ok (text "null")
  | .bool b => .ok (Json.bool b)
  | .string s => .ok (Json.string s)
  | .int i => .ok (Json.int i)
  | .double x => if x.isFinite then .ok (x.write .document) else .error ⟨x⟩
  | .number numeral => .ok numeral
  | .list items => do
    let parts ← encodeItems items
    pure ([Ascii.openBracket] ++ Text.join [Ascii.comma] parts ++ [Ascii.closeBracket])
  | .map entries => do
    let parts ← encodeEntries entries
    pure ([Ascii.openBrace] ++ Text.join [Ascii.comma] parts ++ [Ascii.closeBrace])
  | .value v => v.encode
  | .other shown => .ok (Json.string shown)

def encodeItems : List Plain → Except EncodeError (List Text)
  | [] => .ok []
  | p :: ps => do
    let part ← encode p
    let parts ← encodeItems ps
    pure (part :: parts)

def encodeEntries : List (Text × Plain) → Except EncodeError (List Text)
  | [] => .ok []
  | (k, p) :: ps => do
    let part ← encode p
    let parts ← encodeEntries ps
    pure ((Json.string k ++ [Ascii.colon] ++ part) :: parts)

end

mutual

/-- Plain data as it is named in messages. -/
def shown : Plain → Text
  | .null => text "<nil>"
  | .bool b => Json.bool b
  | .string s => s
  | .int i => Json.int i
  | .double x => x.write .message
  | .number numeral => numeral
  | .list items => [Ascii.openBracket] ++ Text.join [Ascii.space] (shownItems items)
      ++ [Ascii.closeBracket]
  | .map entries => text "map[" ++ Text.join [Ascii.space] (shownEntries entries)
      ++ [Ascii.closeBracket]
  | .value v => v.display
  | .other s => s

def shownItems : List Plain → List Text
  | [] => []
  | p :: ps => shown p :: shownItems ps

def shownEntries : List (Text × Plain) → List Text
  | [] => []
  | (k, p) :: ps => (k ++ [Ascii.colon] ++ shown p) :: shownEntries ps

end

end Plain

namespace Entries

/-- A string and a value make a pair. -/
def pair? : Plain → Plain → Option (Text × Value)
  | .string k, .value v => some (k, v)
  | _, _ => none

/-- The pairs among items that are a key and a value in turn. What makes no pair is left out, and so is
a last item without a partner. -/
def pairsOf : List Plain → List (Text × Value)
  | key :: v :: rest => (pair? key v).toList ++ pairsOf rest
  | _ => []

/-- Stores the pairs among the items one after another. -/
def ofPairs (items : List Plain) : Entries := ofList (pairsOf items)

end Entries

namespace Value

mutual

/-- The plain data of a value. -/
def toPlain : Value → Plain
  | .null => .null
  | .bool b => .bool b
  | .int i => .int i
  | .double x => .double x
  | .string s => .string s
  | .list items => .list (toPlains items)
  | .document entries => .map (Table.ofList (toPlainEntries entries))

def toPlains : List Value → List Plain
  | [] => []
  | v :: vs => toPlain v :: toPlains vs

def toPlainEntries : List (Text × Value) → List (Text × Plain)
  | [] => []
  | (k, v) :: es => (k, toPlain v) :: toPlainEntries es

end

end Value

end ScopedAggregation
