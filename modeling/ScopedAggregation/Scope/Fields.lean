import ScopedAggregation.Text

namespace ScopedAggregation

/-- An exposed name and the path that it stands for. -/
structure Field where
  name : Text
  target : Text
deriving DecidableEq, Repr, Inhabited

namespace Field

/-- A field that stands for the path of its own name. -/
def ofName (name : Text) : Field := ⟨name, name⟩

/-- A field that reads `target`, or the path of its own name when no target is given. -/
def renamed (name target : Text) : Field := if target = [] then ofName name else ⟨name, target⟩

/-- The name, with the target after an arrow when it is another one. -/
def display (f : Field) : Text :=
  if f.target = f.name then f.name else f.name ++ text "->" ++ f.target

end Field

/-- An ordered set of fields. -/
structure Fields where
  toList : List Field := []
deriving DecidableEq, Repr, Inhabited

namespace Fields

/-- Keeps the first field of each name. -/
def distinct : List Field → List Field
  | [] => []
  | f :: fs => f :: (distinct fs).filter (·.name ≠ f.name)

def ofList (fs : List Field) : Fields := ⟨distinct fs⟩

def ofNames (names : List Text) : Fields := ofList (names.map Field.ofName)

/-- The set with further fields after its own. -/
def append (s : Fields) (fs : List Field) : Fields := ofList (s.toList ++ fs)

def lookup? (name : Text) (s : Fields) : Option Field := s.toList.find? (·.name = name)

def contains (name : Text) (s : Fields) : Bool := (s.lookup? name).isSome

def names (s : Fields) : List Text := s.toList.map (·.name)

def size (s : Fields) : Nat := s.toList.length

/-- The set between brackets. -/
def display (s : Fields) : Text :=
  [Ascii.openBracket] ++ Text.join (text ", ") (s.toList.map Field.display)
    ++ [Ascii.closeBracket]

end Fields

end ScopedAggregation
