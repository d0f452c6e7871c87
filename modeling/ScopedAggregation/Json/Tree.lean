import ScopedAggregation.Text.Utf8

namespace ScopedAggregation.Json

/-- A JSON text as a tree. -/
inductive Tree where
  | null
  | bool (b : Bool)
  | number (numeral : Text)
  | string (s : Text)
  | array (items : List Tree)
  | object (members : List (Text × Tree))
deriving Inhabited

/-- How deeply arrays and objects may nest. -/
def maxDepth : Nat := 10000

def isSpace (b : UInt8) : Bool :=
  b = Ascii.space || b = Ascii.tab || b = Ascii.newline || b = Ascii.carriageReturn

def skipSpace (s : Text) : Text := s.dropWhile isSpace

/-- The number of exactly four hexadecimal digits and what follows them. -/
def readHex4 : Text → Option (Nat × Text)
  | a :: b :: c :: d :: rest => do
    let a ← Ascii.hexValue? a
    let b ← Ascii.hexValue? b
    let c ← Ascii.hexValue? c
    let d ← Ascii.hexValue? d
    some (((a * 16 + b) * 16 + c) * 16 + d, rest)
  | _ => none

/-- The byte that an escape of one letter stands for. -/
def shortEscape? : UInt8 → Option UInt8
  | 0x22 => some 0x22
  | 0x5c => some 0x5c
  | 0x2f => some 0x2f
  | 0x62 => some 0x08
  | 0x66 => some 0x0c
  | 0x6e => some 0x0a
  | 0x72 => some 0x0d
  | 0x74 => some 0x09
  | _ => none

def isHighHalf (n : Nat) : Bool := 0xd800 ≤ n && n ≤ 0xdbff

def isLowHalf (n : Nat) : Bool := 0xdc00 ≤ n && n ≤ 0xdfff

/-- The character of an escape by number and what follows it; two halves make one character, and a
half alone is none. -/
def joinHalves (n : Nat) (rest : Text) : Char × Text :=
  if isHighHalf n then
    match rest with
    | 0x5c :: 0x75 :: more =>
      match readHex4 more with
      | some (m, after) =>
        if isLowHalf m then
          (Char.ofNat (0x10000 + (n - 0xd800) * 0x400 + (m - 0xdc00)), after)
        else (Utf8.replacement, rest)
      | none => (Utf8.replacement, rest)
    | _ => (Utf8.replacement, rest)
  else if isLowHalf n then (Utf8.replacement, rest)
  else (Char.ofNat n, rest)

/-- The bytes of a string up to its closing quote, and what follows it. -/
def readStringFrom : Nat → Text → Option (Text × Text)
  | 0, _ => none
  | _ + 1, [] => none
  | _ + 1, 0x22 :: rest => some ([], rest)
  | n + 1, 0x5c :: 0x75 :: rest => do
    let (code, rest) ← readHex4 rest
    let (c, rest) := joinHalves code rest
    let (s, rest) ← readStringFrom n rest
    some (Utf8.encodeChar c ++ s, rest)
  | n + 1, 0x5c :: b :: rest => do
    let b ← shortEscape? b
    let (s, rest) ← readStringFrom n rest
    some (b :: s, rest)
  | n + 1, b :: rest =>
    if b < 0x20 || b = Ascii.backslash then none
    else do
      let (s, rest) ← readStringFrom n rest
      some (b :: s, rest)

/-- A string behind its opening quote. -/
def readString (s : Text) : Option (Text × Text) := do
  let (bytes, rest) ← readStringFrom (s.length + 1) s
  some ((Utf8.toChars bytes).flatMap Utf8.encodeChar, rest)

/-- The digits at the beginning of a text, one at least, and what follows them. -/
def readDigits (s : Text) : Option (Text × Text) :=
  let digits := s.takeWhile Ascii.isDigit
  if digits.isEmpty then none else some (digits, s.dropWhile Ascii.isDigit)

/-- A whole part: a zero alone, or digits that do not start with one. -/
def readWhole : Text → Option (Text × Text)
  | 0x30 :: rest => some ([0x30], rest)
  | s => readDigits s

def readFraction : Text → Option (Text × Text)
  | 0x2e :: rest => do
    let (digits, rest) ← readDigits rest
    some (0x2e :: digits, rest)
  | s => some ([], s)

def readExponent : Text → Option (Text × Text)
  | b :: rest =>
    if Ascii.lower b = 0x65 then
      let (sign, rest) : Text × Text := match rest with
        | 0x2b :: r => ([0x2b], r)
        | 0x2d :: r => ([0x2d], r)
        | r => ([], r)
      do
        let (digits, rest) ← readDigits rest
        some (b :: sign ++ digits, rest)
    else some ([], b :: rest)
  | [] => some ([], [])

def readNumber (s : Text) : Option (Text × Text) := do
  let (sign, rest) : Text × Text := match s with
    | 0x2d :: r => ([0x2d], r)
    | r => ([], r)
  let (whole, rest) ← readWhole rest
  let (fraction, rest) ← readFraction rest
  let (exponent, rest) ← readExponent rest
  some (sign ++ whole ++ fraction ++ exponent, rest)

/-- A key and the colon after it. -/
def readKey (s : Text) : Option (Text × Text) :=
  match skipSpace s with
  | 0x22 :: rest => do
    let (key, rest) ← readString rest
    match skipSpace rest with
    | 0x3a :: rest => some (key, rest)
    | _ => none
  | _ => none

mutual

/-- Reads a value that may nest `depth` deep. -/
def readValue (depth : Nat) : Nat → Text → Option (Tree × Text)
  | 0, _ => none
  | n + 1, s =>
    match skipSpace s with
    | 0x6e :: 0x75 :: 0x6c :: 0x6c :: rest => some (.null, rest)
    | 0x74 :: 0x72 :: 0x75 :: 0x65 :: rest => some (.bool true, rest)
    | 0x66 :: 0x61 :: 0x6c :: 0x73 :: 0x65 :: rest => some (.bool false, rest)
    | 0x22 :: rest => (readString rest).map fun (s, rest) => (.string s, rest)
    | 0x5b :: rest =>
      if depth = 0 then none
      else match skipSpace rest with
        | 0x5d :: rest => some (.array [], rest)
        | rest => (readItems (depth - 1) [] n rest).map fun (xs, rest) => (.array xs, rest)
    | 0x7b :: rest =>
      if depth = 0 then none
      else match skipSpace rest with
        | 0x7d :: rest => some (.object [], rest)
        | rest => (readMembers (depth - 1) [] n rest).map fun (ms, rest) => (.object ms, rest)
    | rest => (readNumber rest).map fun (numeral, rest) => (.number numeral, rest)

/-- Reads the items of an array up to its end; those read before come last one first. -/
def readItems (depth : Nat) (items : List Tree) : Nat → Text → Option (List Tree × Text)
  | 0, _ => none
  | n + 1, s =>
    match readValue depth n s with
    | none => none
    | some (item, rest) =>
      match skipSpace rest with
      | 0x2c :: rest => readItems depth (item :: items) n rest
      | 0x5d :: rest => some ((item :: items).reverse, rest)
      | _ => none

/-- Reads the members of an object up to its end. -/
def readMembers (depth : Nat) (members : List (Text × Tree)) :
    Nat → Text → Option (List (Text × Tree) × Text)
  | 0, _ => none
  | n + 1, s =>
    match readKey s with
    | none => none
    | some (key, rest) =>
      match readValue depth n rest with
      | none => none
      | some (item, rest) =>
        match skipSpace rest with
        | 0x2c :: rest => readMembers depth ((key, item) :: members) n rest
        | 0x7d :: rest => some (((key, item) :: members).reverse, rest)
        | _ => none

end

/-- Reads a text that is one JSON value. -/
def Tree.read (s : Text) : Option Tree :=
  match readValue maxDepth (s.length + 1) s with
  | some (tree, rest) => if (skipSpace rest).isEmpty then some tree else none
  | none => none

/-- A name regardless of case; two further characters fold onto ASCII letters. -/
def foldName (s : Text) : List Rune :=
  (Utf8.decode s).map fun
    | .char c =>
      if c.toNat = 0x17f then .char 's'
      else if c.toNat = 0x212a then .char 'k'
      else .char c.toLower
    | r => r

def sameName (a b : Text) : Bool := foldName a = foldName b

end ScopedAggregation.Json
