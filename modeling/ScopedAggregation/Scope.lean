import ScopedAggregation.Error

namespace ScopedAggregation

/-- How a scope relates to what lies outside it: a synthetic one hides the document behind it, the
others pass on the names that they do not expose. -/
inductive Exposure where
  | synthetic
  | inheriting
  | unnamed (code : Int)
deriving DecidableEq, Repr

namespace Exposure

def ofCode (code : Int) : Exposure :=
  if code = 0 then .synthetic else if code = 1 then .inheriting else .unnamed code

def name : Exposure → Text
  | .synthetic => text "synthetic"
  | .inheriting => text "inheriting"
  | .unnamed code => text "Exposure(" ++ Text.ofInt code ++ text ")"

end Exposure

/-- What a name turned out to be. -/
inductive ResolutionKind where
  | field
  | variable
deriving DecidableEq, Repr

def ResolutionKind.name : ResolutionKind → Text
  | .field => text "field"
  | .variable => text "variable"

/-- A resolved name: the name as asked for, and the variable or document path behind it. -/
structure Resolution where
  kind : ResolutionKind
  name : Text
  path : Text
deriving DecidableEq, Repr

/-- The reference as it stands in a document: two dollar signs for variables, one for fields. -/
def Resolution.reference (r : Resolution) : Text :=
  match r.kind with
  | .variable => Ascii.dollar :: Ascii.dollar :: r.path
  | .field => Ascii.dollar :: r.path

/-- The variables that are bound everywhere. -/
def systemVariables : Fields := .ofNames [text "ROOT", text "CURRENT", text "REMOVE"]

/-- A chain of scopes over a root. -/
inductive Context where
  | root
  | restricted (fields : Fields)
  | child (exposure : Exposure) (fields : Fields) (parent : Context)
deriving DecidableEq, Repr, Inhabited

namespace Context

/-- A root that shows every field, or only the given ones when there are any. -/
def ofInput (fields : Fields) : Context :=
  if 0 < fields.size then .restricted fields else .root

/-- Resolves a name at a root, given its restriction. -/
def resolveAtRoot (restriction : Option Fields) (name : Text) : Except CompileError Resolution :=
  if name = [] then .error { cause := .emptyReference }
  else
    let (head, rest) := Text.splitHead name
    if systemVariables.contains head then .ok ⟨.variable, name, name⟩
    else match restriction with
      | none => .ok ⟨.field, name, name⟩
      | some fields =>
        match fields.lookup? head with
        | some f => .ok ⟨.field, name, f.target ++ rest⟩
        | none => .error { cause := .notExposed fields, name := name }

/-- Resolves a name, nearest scope first. -/
def resolve (name : Text) : Context → Except CompileError Resolution
  | .root => resolveAtRoot none name
  | .restricted fields => resolveAtRoot (some fields) name
  | .child exposure fields parent =>
    if name = [] then .error { cause := .emptyReference }
    else
      let (head, rest) := Text.splitHead name
      match fields.lookup? head with
      | some f => .ok ⟨.variable, name, f.target ++ rest⟩
      | none => do
        let r ← resolve name parent
        if exposure = .synthetic && r.kind = .field then
          .error { cause := .hidden fields, name := name }
        else pure r

end Context

end ScopedAggregation
