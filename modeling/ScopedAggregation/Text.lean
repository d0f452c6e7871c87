namespace ScopedAggregation

/-- A text is its bytes, valid UTF-8 or not. -/
abbrev Text := List UInt8

/-- The bytes of a string. -/
def text (s : String) : Text := s.toByteArray.data.toList

namespace Ascii

abbrev tab : UInt8 := 0x09
abbrev newline : UInt8 := 0x0a
abbrev carriageReturn : UInt8 := 0x0d
abbrev space : UInt8 := 0x20
abbrev doubleQuote : UInt8 := 0x22
abbrev hash : UInt8 := 0x23
abbrev dollar : UInt8 := 0x24
abbrev percent : UInt8 := 0x25
abbrev ampersand : UInt8 := 0x26
abbrev singleQuote : UInt8 := 0x27
abbrev openParen : UInt8 := 0x28
abbrev closeParen : UInt8 := 0x29
abbrev star : UInt8 := 0x2a
abbrev plus : UInt8 := 0x2b
abbrev comma : UInt8 := 0x2c
abbrev minus : UInt8 := 0x2d
abbrev dot : UInt8 := 0x2e
abbrev slash : UInt8 := 0x2f
abbrev zero : UInt8 := 0x30
abbrev colon : UInt8 := 0x3a
abbrev semicolon : UInt8 := 0x3b
abbrev less : UInt8 := 0x3c
abbrev equals : UInt8 := 0x3d
abbrev greater : UInt8 := 0x3e
abbrev question : UInt8 := 0x3f
abbrev openBracket : UInt8 := 0x5b
abbrev backslash : UInt8 := 0x5c
abbrev closeBracket : UInt8 := 0x5d
abbrev underscore : UInt8 := 0x5f
abbrev openBrace : UInt8 := 0x7b
abbrev closeBrace : UInt8 := 0x7d

def isDigit (b : UInt8) : Bool := 0x30 ≤ b && b ≤ 0x39

def isUpper (b : UInt8) : Bool := 0x41 ≤ b && b ≤ 0x5a

def isLower (b : UInt8) : Bool := 0x61 ≤ b && b ≤ 0x7a

def isLetter (b : UInt8) : Bool := isUpper b || isLower b

/-- The value of a decimal digit; meaningful for digits only. -/
def digitValue (b : UInt8) : Nat := b.toNat - 0x30

/-- The value of a digit of any base up to sixteen. -/
def hexValue? (b : UInt8) : Option Nat :=
  if isDigit b then some (b.toNat - 0x30)
  else if 0x61 ≤ b && b ≤ 0x66 then some (b.toNat - 0x61 + 10)
  else if 0x41 ≤ b && b ≤ 0x46 then some (b.toNat - 0x41 + 10)
  else none

/-- The lower-case form of an ASCII letter; other bytes stay. -/
def lower (b : UInt8) : UInt8 := if isUpper b then b + 0x20 else b

/-- The lower-case digit of a value below sixteen. -/
def hexDigit (n : Nat) : UInt8 :=
  if n < 10 then UInt8.ofNat (0x30 + n) else UInt8.ofNat (0x61 + n - 10)

end Ascii

namespace Text

/-- The decimal numeral of a natural number. -/
def ofNat (n : Nat) : Text := (Nat.toDigits 10 n).map Char.toUInt8

/-- The decimal numeral of an integer, with a minus sign when it is negative. -/
def ofInt : Int → Text
  | .ofNat n => ofNat n
  | .negSucc n => Ascii.minus :: ofNat (n + 1)

/-- The number that a sequence of decimal digits denotes. -/
def digitsValue (ds : Text) : Nat := ds.foldl (fun n d => n * 10 + Ascii.digitValue d) 0

def startsWith (p s : Text) : Bool := p.isPrefixOf s

def endsWith (p s : Text) : Bool := p.isSuffixOf s

/-- What follows `p` in `s`, when `s` begins with `p`. -/
def after? : Text → Text → Option Text
  | [], s => some s
  | _ :: _, [] => none
  | a :: p, b :: s => if a = b then after? p s else none

/-- Cuts at the first occurrence of `needle`: what stands before it and what stands after it. -/
def cut? (needle : Text) : Text → Option (Text × Text)
  | [] => if needle = [] then some ([], []) else none
  | b :: s =>
    match after? needle (b :: s) with
    | some rest => some ([], rest)
    | none => (cut? needle s).map fun (before, rest) => (b :: before, rest)

def includes (needle s : Text) : Bool := (cut? needle s).isSome

/-- Cuts at every occurrence of the byte; there is always one piece more than there are cuts. -/
def splitAt (sep : UInt8) : Text → List Text
  | [] => [[]]
  | b :: s =>
    match splitAt sep s with
    | [] => [[b]]
    | piece :: pieces => if b = sep then [] :: piece :: pieces else (b :: piece) :: pieces

/-- Joins texts with a separator between neighbours. -/
def join (sep : Text) : List Text → Text
  | [] => []
  | [s] => s
  | s :: t :: rest => s ++ sep ++ join sep (t :: rest)

/-- Puts `new` in place of every occurrence of the byte. -/
def replaceByte (old : UInt8) (new : Text) (s : Text) : Text :=
  s.flatMap fun b => if b = old then new else [b]

/-- Drops the bytes at the end that satisfy `p`. -/
def dropEndWhile (p : UInt8 → Bool) (s : Text) : Text := (s.reverse.dropWhile p).reverse

/-- ASCII letters in lower case, everything else as it is. -/
def lower (s : Text) : Text := s.map Ascii.lower

/-- The order of bytes, shorter first. -/
def le : Text → Text → Bool
  | [], _ => true
  | _ :: _, [] => false
  | a :: s, b :: t => if a < b then true else if b < a then false else le s t

def lt (s t : Text) : Bool := !le t s

/-- The two lower-case hexadecimal digits of a byte. -/
def hexByte (b : UInt8) : Text := [Ascii.hexDigit (b.toNat / 16), Ascii.hexDigit (b.toNat % 16)]

/-- Lower-case hexadecimal digits of a number, filled up with zeros to at least `width`. -/
def hex (width n : Nat) : Text :=
  let digits := (Nat.toDigits 16 n).map Char.toUInt8
  List.replicate (width - digits.length) Ascii.zero ++ digits

/-- A path's first segment and the remainder with its leading dot. -/
def splitHead (path : Text) : Text × Text :=
  (path.takeWhile (· ≠ Ascii.dot), path.dropWhile (· ≠ Ascii.dot))

end Text

end ScopedAggregation
