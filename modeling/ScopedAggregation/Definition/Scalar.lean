import ScopedAggregation.Value.Plain
import ScopedAggregation.Yaml.Node

namespace ScopedAggregation.Definition

open Yaml (Node ScalarKind ScalarStyle Document)

/-- A character in lower case, where the long s counts as an s. -/
def foldRune : Rune → Rune
  | .char c => if c.toNat = 0x17f then .char 's' else .char c.toLower
  | r => r

/-- Equality of texts regardless of case. -/
def sameWord (word : String) (s : Text) : Bool :=
  (Utf8.decode s).map foldRune = Utf8.decode (text word)

/-- The data that the text alone denotes. -/
def detect (s : Text) : Plain :=
  let word := Text.lower s
  let among (words : List String) : Bool := words.any fun w => text w = word
  if among ["", "~", "null"] then .null
  else if among ["true", "yes"] then .bool true
  else if among ["false", "no"] then .bool false
  else
    let fractional := s.any fun b => b = Ascii.dot || Ascii.lower b = 0x65
    match Numeral.scanInt? s, Numeral.scanDouble? s with
    | some i, x =>
      if Json.int i = s then .int i
      else match x with
        | some x => if fractional then .double x else .string s
        | none => .string s
    | none, some x => if fractional then .double x else .string s
    | none, none => .string s

/-- The data of a scalar. -/
def scalarData (kind : ScalarKind) (style : ScalarStyle) (s : Text) : Plain :=
  if style = .singleQuoted || style = .doubleQuoted then .string s
  else match kind with
    | .null => .null
    | .bool => .bool (sameWord "true" s || sameWord "yes" s)
    | .int =>
      match Numeral.scanInt? s with
      | some i => .int i
      | none => detect s
    | .float =>
      match Numeral.scanDouble? s with
      | some x => .double x
      | none => detect s
    | .str => .string s
    | .other => detect s

mutual

/-- The data of a node, given the data of the anchored nodes. Keys are taken as texts; of equal ones
the last counts. -/
def nodeData (anchored : Nat → Plain) : Node → Plain
  | .scalar _ kind style s => scalarData kind style s
  | .sequence _ items => .list (nodeItems anchored items)
  | .mapping _ entries => .map (Table.ofList (nodeEntries anchored entries))
  | .backReference _ _ target => anchored target

def nodeItems (anchored : Nat → Plain) : List Node → List Plain
  | [] => []
  | n :: ns => nodeData anchored n :: nodeItems anchored ns

def nodeEntries (anchored : Nat → Plain) : List (Node × Node) → List (Text × Plain)
  | [] => []
  | (k, n) :: ns => (k.value, nodeData anchored n) :: nodeEntries anchored ns

end

/-- The data of the anchored node of a number, with at most `n` aliases inside one another. -/
def anchoredData (d : Document) : Nat → Nat → Plain
  | 0, _ => .null
  | n + 1, target =>
    match d.node? target with
    | some node => nodeData (anchoredData d n) node
    | none => .null

/-- The data of a node of a document. A node that does not contain itself meets fewer aliases inside
one another than there are anchored nodes. -/
def dataOf (d : Document) (node : Node) : Plain :=
  nodeData (anchoredData d d.anchored.length) node

end ScopedAggregation.Definition
