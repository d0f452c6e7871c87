import ScopedAggregation.Text.Quoted

namespace ScopedAggregation

/-- Why the store refuses a request. -/
inductive StoreError where
  | nameLength (length : Nat)
  | nameCharacter (r : Rune) (name : Text)
  | notFound (name : Text)
  | alreadyExists (name : Text)
  | closed
  | keyRequired
  | keyTooLarge
  | undecodable (key : Text)
  | yearRange
  | unwritten (reason : Text)
deriving DecidableEq, Repr

def StoreError.message : StoreError → Text
  | .nameLength n =>
    text "definition name must be 1-64 characters, got " ++ Text.ofNat n
  | .nameCharacter r name =>
    text "invalid character " ++ Text.quotedUnit r ++ text " in definition name "
      ++ Text.quoted name
  | .notFound name => text "definition '" ++ name ++ text "' not found"
  | .alreadyExists name => text "definition '" ++ name ++ text "' already exists"
  | .closed => text "database not open"
  | .keyRequired => text "key required"
  | .keyTooLarge => text "key too large"
  | .undecodable key => text "decode definition " ++ key
  | .yearRange =>
    text "json: error calling MarshalJSON for type time.Time: Time.MarshalJSON: "
      ++ text "year outside of range [0,9999]"
  | .unwritten reason => reason

namespace DefinitionName

/-- The letters that a name may start with. -/
def isLetter : Rune → Bool
  | .char c => c.isAlpha
  | .stray _ => false

/-- What may stand after the first letter of a name. -/
def isPart : Rune → Bool
  | .char c => c.isAlphanum || c = '-' || c = '_'
  | .stray _ => false

/-- The first unit that may not stand where it stands. -/
def offender? : List Rune → Option Rune
  | [] => none
  | r :: rest => if isLetter r then rest.find? fun r => !isPart r else some r

/-- A name has 1 to 64 bytes: letters, digits, hyphens and underscores, a letter first. -/
def check (name : Text) : Except StoreError Unit :=
  if name.isEmpty || 64 < name.length then .error (.nameLength name.length)
  else match offender? (Utf8.decode name) with
    | some r => .error (.nameCharacter r name)
    | none => .ok ()

end DefinitionName

end ScopedAggregation
