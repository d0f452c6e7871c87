import ScopedAggregation.Http
import ScopedAggregation.Text.Blank

namespace ScopedAggregation.Http

/-- The byte of two hexadecimal digits at the beginning of a text. -/
def hexPair? : Text → Option UInt8
  | a :: b :: _ => do
    let x ← Ascii.hexValue? a
    let y ← Ascii.hexValue? b
    some (UInt8.ofNat (x * 16 + y))
  | _ => none

/-- Decodes a text whose first `skip` bytes belong to a byte already read. A percent sign without
two bytes after it ends the decoding; one without two digits stands for itself. -/
def decodeFormAfter : Nat → Text → Text
  | _, [] => []
  | skip + 1, _ :: rest => decodeFormAfter skip rest
  | 0, c :: rest =>
    if c = Ascii.percent then
      if rest.length < 2 then c :: rest
      else match hexPair? rest with
        | some b => b :: decodeFormAfter 2 rest
        | none => c :: decodeFormAfter 0 rest
    else if c = Ascii.plus then Ascii.space :: decodeFormAfter 0 rest
    else c :: decodeFormAfter 0 rest

/-- The text that an encoded one stands for. -/
def decodeForm (s : Text) : Text := decodeFormAfter 0 s

/-- A name and its value; without an equals sign the value is empty. -/
def readPair (s : Text) : Text × Text :=
  match Text.cut? [Ascii.equals] s with
  | some (name, value) => (decodeForm name, decodeForm value)
  | none => (decodeForm s, [])

/-- The pairs of a form in order, without those that are empty altogether. -/
def readForm (s : Text) : List (Text × Text) :=
  ((Text.splitAt Ascii.ampersand s).map readPair).filter fun (name, value) =>
    !(name.isEmpty && value.isEmpty)

/-- The path and the query of a target. A host before the path is passed over, and what follows a
hash sign is not part of either. -/
def splitTarget (target : Text) : Text × Text :=
  let target := match Text.cut? (text "//") target with
    | some (scheme, rest) =>
      if scheme.any (· = Ascii.slash) then target
      else
        let path := rest.dropWhile fun b =>
          b ≠ Ascii.slash && b ≠ Ascii.question && b ≠ Ascii.hash
        if path.isEmpty then [Ascii.slash] else path
    | none => target
  let target := target.takeWhile (· ≠ Ascii.hash)
  (target.takeWhile (· ≠ Ascii.question), (target.dropWhile (· ≠ Ascii.question)).drop 1)

def Request.path (r : Request) : Text := (splitTarget r.target).1

/-- The first value of a name in the query; empty if it is not there. -/
def Request.query (name : String) (r : Request) : Text :=
  match (readForm (splitTarget r.target).2).find? (·.1 = text name) with
  | some (_, value) => value
  | none => []

/-- What kind of body a content type announces. -/
inductive BodyKind where
  | json
  | form
  | unknown
deriving DecidableEq, Repr

/-- A content type without what stands between its slash and a plus sign. -/
def withoutVendor (contentType : Text) : Text :=
  match Text.cut? [Ascii.plus] contentType, Text.cut? [Ascii.slash] contentType with
  | some (before, suffix), some (type, _) =>
    if before.any (· = Ascii.semicolon) then contentType
    else type ++ [Ascii.slash] ++ suffix
  | _, _ => contentType

/-- The content type without the white space around it. -/
def Request.type (r : Request) : Text :=
  Text.dropEndWhile Text.isSpaceOrTab (r.contentType.dropWhile Text.isSpaceOrTab)

/-- The content type that marks a form. -/
def formType : Text := text "application/x-www-form-urlencoded"

/-- The kind of a body, by its content type in any case and without parameters. -/
def Request.bodyKind (r : Request) : BodyKind :=
  let contentType := withoutVendor (Text.lower r.type)
  let contentType := contentType.takeWhile (· ≠ Ascii.semicolon)
  if Text.endsWith (text "json") contentType then .json
  else if Text.startsWith formType contentType then .form
  else .unknown

/-- The pairs of a form in the body; one whose type is spelled in another way has none. -/
def Request.form (r : Request) : List (Text × Text) :=
  if Text.startsWith formType r.type then readForm r.body else []

end ScopedAggregation.Http
