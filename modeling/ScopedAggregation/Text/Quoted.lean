import ScopedAggregation.Text.Printable
import ScopedAggregation.Text.Utf8

namespace ScopedAggregation.Text

/-- The escape of a character that is not printable. -/
def spelledOut (n : Nat) : Text :=
  match n with
  | 0x07 => text "\\a"
  | 0x08 => text "\\b"
  | 0x0c => text "\\f"
  | 0x0a => text "\\n"
  | 0x0d => text "\\r"
  | 0x09 => text "\\t"
  | 0x0b => text "\\v"
  | n =>
    if n < 0x20 || n = 0x7f then text "\\x" ++ hex 2 n
    else if n < 0x10000 then text "\\u" ++ hex 4 n
    else text "\\U" ++ hex 8 n

/-- One character between quotes of the given kind. -/
def quotedChar (quote : UInt8) (c : Char) : Text :=
  if c.toNat = quote.toNat then [Ascii.backslash, quote]
  else if c = '\\' then text "\\\\"
  else if isPrintable c.toNat then Utf8.encodeChar c
  else spelledOut c.toNat

/-- One unit between double quotes. -/
def quotedRune : Rune → Text
  | .stray b => text "\\x" ++ hexByte b
  | .char c => quotedChar Ascii.doubleQuote c

/-- The text between double quotes. -/
def quoted (s : Text) : Text :=
  [Ascii.doubleQuote] ++ (Utf8.decode s).flatMap quotedRune ++ [Ascii.doubleQuote]

/-- A unit between single quotes; a stray byte is shown by the replacement character. -/
def quotedUnit (r : Rune) : Text :=
  let c := match r with
    | .char c => c
    | .stray _ => Utf8.replacement
  [Ascii.singleQuote] ++ quotedChar Ascii.singleQuote c ++ [Ascii.singleQuote]

end ScopedAggregation.Text
