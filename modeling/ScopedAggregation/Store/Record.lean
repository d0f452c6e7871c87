import ScopedAggregation.Json.Tree
import ScopedAggregation.Table
import ScopedAggregation.Time
import ScopedAggregation.Value.Json

namespace ScopedAggregation

/-- Labels by name; there may be none at all, which differs from an empty table. -/
abbrev Labels := Option (Table Text)

/-- A definition in the store: its source, the revision of the source, and when it was created and
last updated. -/
structure StoredDefinition where
  name : Text := []
  description : Text := []
  source : Text := []
  revision : Text := []
  created : Instant := .none
  updated : Instant := .none
  labels : Labels := none
deriving DecidableEq, Repr, Inhabited

namespace Json

/-- An object from the texts of its members. -/
def object (members : List (Text × Text)) : Text :=
  [Ascii.openBrace]
    ++ Text.join [Ascii.comma] (members.map fun (k, v) => string k ++ [Ascii.colon] ++ v)
    ++ [Ascii.closeBrace]

/-- An array from the texts of its items. -/
def array (items : List Text) : Text :=
  [Ascii.openBracket] ++ Text.join [Ascii.comma] items ++ [Ascii.closeBracket]

def labels (t : Table Text) : Text := object (t.map fun (k, v) => (k, string v))

/-- A string member: null leaves it as it was. -/
def Tree.stringOr (old : Text) : Tree → Option Text
  | .string s => some s
  | .null => some old
  | _ => none

/-- A moment in quotes; null leaves it as it was. -/
def Tree.instantOr (old : Instant) : Tree → Option Instant
  | .string s => Instant.read s
  | .null => some old
  | _ => none

/-- Adds labels to those there are. A null in place of a label is an empty one. -/
def addLabels : Table Text → List (Text × Tree) → Option (Table Text)
  | t, [] => some t
  | t, (k, v) :: rest => do
    let s ← v.stringOr []
    addLabels (t.insert k s) rest

/-- Labels: an object adds to those there are, null removes them all. -/
def Tree.labelsOr (old : Labels) : Tree → Option Labels
  | .object members => (addLabels (old.getD []) members).map some
  | .null => some none
  | _ => none

end Json

namespace StoredDefinition

/-- A member that is left out when it is empty. -/
def unlessEmpty (key : String) (value : Text) : List (Text × Text) :=
  if value.isEmpty then [] else [(text key, Json.string value)]

def labelMember (l : Labels) : List (Text × Text) :=
  match l with
  | some (x :: t) => [(text "labels", Json.labels (x :: t))]
  | _ => []

/-- The JSON text in the database. -/
def encode (d : StoredDefinition) : Text :=
  Json.object <|
    [(text "name", Json.string d.name)]
      ++ unlessEmpty "description" d.description
      ++ [(text "source", Json.string d.source), (text "revisionId", Json.string d.revision),
        (text "createTime", Json.string d.created.exactStamp),
        (text "updateTime", Json.string d.updated.exactStamp)]
      ++ labelMember d.labels

/-- Takes over one member. -/
def setMember (d : StoredDefinition) (key : Text) (v : Json.Tree) : Option StoredDefinition :=
  let isKey (name : String) : Bool := Json.sameName key (text name)
  if isKey "name" then (v.stringOr d.name).map fun s => { d with name := s }
  else if isKey "description" then
    (v.stringOr d.description).map fun s => { d with description := s }
  else if isKey "source" then (v.stringOr d.source).map fun s => { d with source := s }
  else if isKey "revisionId" then (v.stringOr d.revision).map fun s => { d with revision := s }
  else if isKey "createTime" then (v.instantOr d.created).map fun t => { d with created := t }
  else if isKey "updateTime" then (v.instantOr d.updated).map fun t => { d with updated := t }
  else if isKey "labels" then (v.labelsOr d.labels).map fun l => { d with labels := l }
  else some d

def setMembers : StoredDefinition → List (Text × Json.Tree) → Option StoredDefinition
  | d, [] => some d
  | d, (k, v) :: rest => (d.setMember k v).bind fun d => setMembers d rest

/-- Reads the JSON text of the database. -/
def decode (s : Text) : Option StoredDefinition :=
  match Json.Tree.read s with
  | some (.object members) => setMembers {} members
  | some .null => some {}
  | _ => none

end StoredDefinition

end ScopedAggregation
