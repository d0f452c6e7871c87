import ScopedAggregation.Http.Form
import ScopedAggregation.Store.Record

namespace ScopedAggregation.Service

/-- What a body says about a definition. -/
structure DefinitionBody where
  source : Text := []
  description : Text := []
  labels : Labels := none
deriving DecidableEq, Repr

namespace DefinitionBody

/-- Takes over one member; `sourceOnly` leaves all others aside. -/
def setMember (sourceOnly : Bool) (d : DefinitionBody) (key : Text) (v : Json.Tree) :
    Option DefinitionBody :=
  let isKey (name : String) : Bool := Json.sameName key (text name)
  if isKey "source" then (v.stringOr d.source).map fun s => { d with source := s }
  else if sourceOnly then some d
  else if isKey "description" then
    (v.stringOr d.description).map fun s => { d with description := s }
  else if isKey "labels" then (v.labelsOr d.labels).map fun l => { d with labels := l }
  else some d

def setMembers (sourceOnly : Bool) : DefinitionBody → List (Text × Json.Tree) →
    Option DefinitionBody
  | d, [] => some d
  | d, (k, v) :: rest => (d.setMember sourceOnly k v).bind fun d => setMembers sourceOnly d rest

/-- Reads a JSON text; null is as good as an empty object. -/
def ofJson (sourceOnly : Bool) (s : Text) : Option DefinitionBody :=
  match Json.Tree.read s with
  | some (.object members) => setMembers sourceOnly {} members
  | some .null => some {}
  | _ => none

/-- The path that a name with brackets stands for: a dot in place of a bracket that opens, and
nothing in place of one that closes. A bracket without its partner is an error. -/
def dotted : Nat → Text → Option Text
  | 0, [] => some []
  | _ + 1, [] => none
  | n, b :: rest =>
    if b = Ascii.openBracket then
      let inner := rest.takeWhile (· ≠ Ascii.closeBracket)
      let dot : Text := if inner.isEmpty then [] else [Ascii.dot]
      (dotted (n + 1) rest).map (dot ++ ·)
    else if b = Ascii.closeBracket then
      match n with
      | 0 => none
      | n + 1 => dotted n rest
    else (dotted n rest).map (b :: ·)

/-- The name of a pair of a form. -/
def formName (name : Text) : Option Text :=
  if name.any (· = Ascii.openBracket) then dotted 0 name else some name

/-- Takes over the pairs of a form. -/
def ofPairs : DefinitionBody → List (Text × Text) → Option DefinitionBody
  | d, [] => some d
  | d, (name, value) :: rest =>
    match formName name with
    | none => none
    | some key =>
      if Json.sameName key (text "source") then ofPairs { d with source := value } rest
      else if Json.sameName key (text "description") then
        ofPairs { d with description := value } rest
      else ofPairs d rest

/-- Reads the body of a request. -/
def ofRequest (sourceOnly : Bool) (r : Http.Request) : Option DefinitionBody :=
  match r.bodyKind with
  | .json => ofJson sourceOnly r.body
  | .form => ofPairs {} r.form
  | .unknown => none

end DefinitionBody

end ScopedAggregation.Service
