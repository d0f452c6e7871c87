import ScopedAggregation.Text.Utf8

namespace ScopedAggregation.Text

/-- The code points with the Unicode property White_Space. -/
def isBlankPoint (n : Nat) : Bool :=
  (0x09 ≤ n && n ≤ 0x0d) || n = 0x20 || n = 0x85 || n = 0xa0 || n = 0x1680
    || (0x2000 ≤ n && n ≤ 0x200a) || n = 0x2028 || n = 0x2029 || n = 0x202f || n = 0x205f
    || n = 0x3000

def isBlankRune : Rune → Bool
  | .char c => isBlankPoint c.toNat
  | .stray _ => false

/-- The text without the white space at its two ends. -/
def trim (s : Text) : Text :=
  let middle := (Utf8.decode s).dropWhile isBlankRune
  ((middle.reverse.dropWhile isBlankRune).reverse).flatMap Utf8.encodeRune

/-- A byte read as the code point of the same number is white space. -/
def isBlankByte (b : UInt8) : Bool := isBlankPoint b.toNat

/-- Spaces and tabs. -/
def isSpaceOrTab (b : UInt8) : Bool := b = Ascii.space || b = Ascii.tab

end ScopedAggregation.Text
