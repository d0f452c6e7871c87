import ScopedAggregation.Text

namespace ScopedAggregation

/-- A decoded unit: a character, or a byte that belongs to none. -/
inductive Rune where
  | char (c : Char)
  | stray (b : UInt8)
deriving DecidableEq, Repr, Inhabited

namespace Utf8

/-- A continuation byte. -/
def isTail (b : UInt8) : Bool := 0x80 ≤ b && b ≤ 0xbf

/-- The pairs of first bytes that open a three-byte sequence. -/
def opensThree (a b : UInt8) : Bool :=
  (a = 0xe0 && 0xa0 ≤ b && b ≤ 0xbf) || (0xe1 ≤ a && a ≤ 0xec && isTail b)
    || (a = 0xed && 0x80 ≤ b && b ≤ 0x9f) || (0xee ≤ a && a ≤ 0xef && isTail b)

/-- The pairs of first bytes that open a four-byte sequence. -/
def opensFour (a b : UInt8) : Bool :=
  (a = 0xf0 && 0x90 ≤ b && b ≤ 0xbf) || (0xf1 ≤ a && a ≤ 0xf3 && isTail b)
    || (a = 0xf4 && 0x80 ≤ b && b ≤ 0x8f)

/-- The character that a leading byte and continuation bytes spell. -/
def point (lead mask : Nat) (tails : List UInt8) : Rune :=
  .char (Char.ofNat (tails.foldl (fun n b => n * 64 + b.toNat % 64) (lead % mask)))

/-- The unit that begins with byte `a`, and how many of the following bytes belong to it. -/
def unitAt (a : UInt8) (rest : Text) : Rune × Nat :=
  if a < 0x80 then (.char (Char.ofNat a.toNat), 0)
  else match rest with
    | [] => (.stray a, 0)
    | b :: rest =>
      if 0xc2 ≤ a && a ≤ 0xdf && isTail b then (point a.toNat 32 [b], 1)
      else match rest with
        | [] => (.stray a, 0)
        | c :: rest =>
          if opensThree a b && isTail c then (point a.toNat 16 [b, c], 2)
          else match rest with
            | [] => (.stray a, 0)
            | d :: _ =>
              if opensFour a b && isTail c && isTail d then (point a.toNat 8 [b, c, d], 3)
              else (.stray a, 0)

/-- The units of a text whose first `skip` bytes belong to a unit already read. -/
def decodeAfter : Nat → Text → List Rune
  | _, [] => []
  | skip + 1, _ :: rest => decodeAfter skip rest
  | 0, a :: rest =>
    let (unit, width) := unitAt a rest
    unit :: decodeAfter width rest

/-- The units of a text, in order. -/
def decode (s : Text) : List Rune := decodeAfter 0 s

/-- The bytes of a character. -/
def encodeChar (c : Char) : Text := String.utf8EncodeChar c

/-- The bytes of a unit. -/
def encodeRune : Rune → Text
  | .char c => encodeChar c
  | .stray b => [b]

/-- Whether every byte belongs to a character. -/
def isValid (s : Text) : Bool :=
  (decode s).all fun
    | .char _ => true
    | .stray _ => false

/-- The character that stands for a byte that belongs to none. -/
def replacement : Char := Char.ofNat 0xfffd

/-- The text as characters, each stray byte shown by the replacement character. -/
def toChars (s : Text) : List Char :=
  (decode s).map fun
    | .char c => c
    | .stray _ => replacement

end Utf8

/-- The text as a string, each stray byte shown by the replacement character. -/
def Text.toString (s : Text) : String := String.ofList (Utf8.toChars s)

end ScopedAggregation
