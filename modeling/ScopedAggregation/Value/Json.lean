import ScopedAggregation.Number.Layout
import ScopedAggregation.Text.Utf8
import ScopedAggregation.Value

namespace ScopedAggregation

namespace Json

/-- One unit of a string. For a byte of no character stands the escape of the replacement
character. -/
def stringRune : Rune → Text
  | .stray _ => text "\\ufffd"
  | .char c =>
    match c.toNat with
    | 0x22 => text "\\\""
    | 0x5c => text "\\\\"
    | 0x08 => text "\\b"
    | 0x0c => text "\\f"
    | 0x0a => text "\\n"
    | 0x0d => text "\\r"
    | 0x09 => text "\\t"
    | n =>
      if n < 0x20 || n = 0x3c || n = 0x3e || n = 0x26 || n = 0x2028 || n = 0x2029 then
        text "\\u" ++ Text.hex 4 n
      else Utf8.encodeChar c

/-- A string between double quotes. -/
def string (s : Text) : Text :=
  [Ascii.doubleQuote] ++ (Utf8.decode s).flatMap stringRune ++ [Ascii.doubleQuote]

def int (i : Int64) : Text := Text.ofInt i.toInt

def bool (b : Bool) : Text := if b then text "true" else text "false"

end Json

/-- A double that is not finite cannot be encoded. -/
structure EncodeError where
  double : Double
deriving DecidableEq, Repr

def EncodeError.message (e : EncodeError) : Text :=
  text "cannot encode non-finite double " ++ e.double.write .message

namespace Value

mutual

/-- The compact JSON text. -/
def encode : Value → Except EncodeError Text
  | .null => .ok (text "null")
  | .bool b => .ok (Json.bool b)
  | .int i => .ok (Json.int i)
  | .double x => if x.isFinite then .ok (x.write .document) else .error ⟨x⟩
  | .string s => .ok (Json.string s)
  | .list items => do
    let parts ← encodeItems items
    pure ([Ascii.openBracket] ++ Text.join [Ascii.comma] parts ++ [Ascii.closeBracket])
  | .document entries => do
    let parts ← encodeEntries entries
    pure ([Ascii.openBrace] ++ Text.join [Ascii.comma] parts ++ [Ascii.closeBrace])

def encodeItems : List Value → Except EncodeError (List Text)
  | [] => .ok []
  | v :: vs => do
    let part ← encode v
    let parts ← encodeItems vs
    pure (part :: parts)

def encodeEntries : List (Text × Value) → Except EncodeError (List Text)
  | [] => .ok []
  | (k, v) :: es => do
    let part ← encode v
    let parts ← encodeEntries es
    pure ((Json.string k ++ [Ascii.colon] ++ part) :: parts)

end

/-- Puts parts on lines of their own between brackets, one step deeper than the brackets. -/
def bracketed (step : Text) (depth : Nat) (left right : UInt8) (parts : List Text) : Text :=
  let margin (n : Nat) : Text := Ascii.newline :: (List.replicate n step).flatten
  [left] ++ margin (depth + 1) ++ Text.join ([Ascii.comma] ++ margin (depth + 1)) parts
    ++ margin depth ++ [right]

mutual

/-- The JSON text with every entry on a line of its own; empty lists and documents stay closed. -/
def layOut (step : Text) (depth : Nat) : Value → Except EncodeError Text
  | .list [] => .ok [Ascii.openBracket, Ascii.closeBracket]
  | .list (v :: vs) => do
    let part ← layOut step (depth + 1) v
    let parts ← layOutItems step (depth + 1) vs
    pure (bracketed step depth Ascii.openBracket Ascii.closeBracket (part :: parts))
  | .document [] => .ok [Ascii.openBrace, Ascii.closeBrace]
  | .document ((k, v) :: es) => do
    let part ← layOut step (depth + 1) v
    let parts ← layOutEntries step (depth + 1) es
    pure (bracketed step depth Ascii.openBrace Ascii.closeBrace
      ((Json.string k ++ text ": " ++ part) :: parts))
  | v => encode v

def layOutItems (step : Text) (depth : Nat) : List Value → Except EncodeError (List Text)
  | [] => .ok []
  | v :: vs => do
    let part ← layOut step depth v
    let parts ← layOutItems step depth vs
    pure (part :: parts)

def layOutEntries (step : Text) (depth : Nat) :
    List (Text × Value) → Except EncodeError (List Text)
  | [] => .ok []
  | (k, v) :: es => do
    let part ← layOut step depth v
    let parts ← layOutEntries step depth es
    pure ((Json.string k ++ text ": " ++ part) :: parts)

end

/-- The indented JSON text. -/
def encodeIndented (step : Text) (v : Value) : Except EncodeError Text := layOut step 0 v

/-- The JSON text for people: a value without one says why. -/
def display (v : Value) : Text :=
  match v.encode with
  | .ok s => s
  | .error e => text "<invalid: " ++ e.message ++ text ">"

end Value

end ScopedAggregation
