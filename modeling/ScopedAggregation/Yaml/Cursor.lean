import ScopedAggregation.Text.Utf8

namespace ScopedAggregation.Yaml

/-- How many bytes are taken in at a time. -/
def pieceSize : Nat := 512

/-- The characters of a source, and whether a fault follows them. -/
structure Input where
  chars : List Char
  broken : Bool

/-- The characters that may stand in a source. -/
def isAllowed (n : Nat) : Bool :=
  n = 0x09 || n = 0x0a || n = 0x0d || (0x20 ≤ n && n ≤ 0x7e) || n = 0x85
    || (0xa0 ≤ n && n ≤ 0xd7ff) || (0xe000 ≤ n && n ≤ 0xfffd) || (0x10000 ≤ n && n ≤ 0x10ffff)

/-- Units with the position of their first byte, up to the first that may not stand in a source;
then also the position of that one. -/
def allowedUnits : Nat → List Rune → List (Nat × Char) × Option Nat
  | _, [] => ([], none)
  | pos, .stray _ :: _ => ([], some pos)
  | pos, .char c :: rest =>
    if isAllowed c.toNat then
      let (units, fault) := allowedUnits (pos + (Utf8.encodeChar c).length) rest
      ((pos, c) :: units, fault)
    else ([], some pos)

/-- Characters of the pieces before the one with the fault. -/
def ofRunes (runes : List Rune) : Input :=
  match allowedUnits 0 runes with
  | (units, none) => ⟨units.map (·.2), false⟩
  | (units, some fault) =>
    let available := fault / pieceSize * pieceSize
    ⟨(units.filter fun (pos, _) => pos < available).map (·.2), true⟩

/-- The numbers of two-byte units. -/
def units16 (bigEndian : Bool) : Text → Option (List Nat)
  | [] => some []
  | [_] => none
  | a :: b :: rest =>
    let n := if bigEndian then a.toNat * 256 + b.toNat else b.toNat * 256 + a.toNat
    (units16 bigEndian rest).map (n :: ·)

/-- The characters of two-byte units, pairs of surrogates joined. -/
def chars16 : List Nat → Option (List Char)
  | [] => some []
  | n :: rest =>
    if 0xdc00 ≤ n && n ≤ 0xdfff then none
    else if 0xd800 ≤ n && n ≤ 0xdbff then
      match rest with
      | m :: rest =>
        if 0xdc00 ≤ m && m ≤ 0xdfff then
          (chars16 rest).map (Char.ofNat (0x10000 + (n - 0xd800) * 0x400 + (m - 0xdc00)) :: ·)
        else none
      | [] => none
    else (chars16 rest).map (Char.ofNat n :: ·)

/-- The characters of a source. -/
def Input.ofSource (source : Text) : Input :=
  let wide (bigEndian : Bool) (rest : Text) : Input :=
    match (units16 bigEndian rest).bind chars16 with
    | some cs => ofRunes (cs.map .char)
    | none => ⟨[], true⟩
  match source with
  | 0xff :: 0xfe :: rest => wide false rest
  | 0xfe :: 0xff :: rest => wide true rest
  | 0xef :: 0xbb :: 0xbf :: rest => ofRunes (Utf8.decode rest)
  | source => ofRunes (Utf8.decode source)

/-- A place in the source: characters passed, and line and column counted from zero. -/
structure Mark where
  index : Nat := 0
  line : Nat := 0
  column : Nat := 0
deriving DecidableEq, Repr, Inhabited

/-- The characters ahead and the place before them. `newlines` counts the line breaks passed since
the last character that was neither a break nor a blank. -/
structure Cursor where
  rest : List Char
  mark : Mark := {}
  newlines : Nat := 0

def isBlank (c : Char) : Bool := c = ' ' || c = '\t'

def isBreak (c : Char) : Bool :=
  c = '\n' || c = '\r' || c.toNat = 0x85 || c.toNat = 0x2028 || c.toNat = 0x2029

/-- The letters, digits and signs of names. -/
def isWord (c : Char) : Bool := c.isAlphanum || c = '_' || c = '-'

/-- A blank, a break or the end. -/
def isGap : Option Char → Bool
  | none => true
  | some c => isBlank c || isBreak c

namespace Cursor

/-- The next character; none at the end. -/
def peek (c : Cursor) : Option Char := c.rest.head?

/-- The character `k` places ahead. -/
def peekAt (k : Nat) (c : Cursor) : Option Char := (c.rest.drop k).head?

def gapAt (k : Nat) (c : Cursor) : Bool := isGap (c.peekAt k)

def atBlank (c : Cursor) : Bool := c.peek.any isBlank

def atBreak (c : Cursor) : Bool := c.peek.any isBreak

/-- A line ends here, or the source. -/
def atLineEnd (c : Cursor) : Bool := c.peek.all isBreak

/-- Passes one character that is no break. -/
def skip (c : Cursor) : Cursor :=
  match c.rest with
  | [] => c
  | x :: rest =>
    { rest := rest
      mark := { c.mark with index := c.mark.index + 1, column := c.mark.column + 1 }
      newlines := if isBlank x then c.newlines else 0 }

/-- Passes `n` characters that are no breaks. -/
def skipMany : Nat → Cursor → Cursor
  | 0, c => c
  | n + 1, c => skipMany n c.skip

/-- Passes the characters that satisfy `p`, none of which is a break. -/
def skipWhile (p : Char → Bool) (c : Cursor) : Cursor :=
  skipMany (c.rest.takeWhile p).length c

/-- Passes a line break: carriage return and line feed together, or a single break. -/
def skipLine (c : Cursor) : Cursor :=
  let passed (width : Nat) (rest : List Char) : Cursor :=
    { rest := rest
      mark := { index := c.mark.index + width, line := c.mark.line + 1, column := 0 }
      newlines := c.newlines + 1 }
  match c.rest with
  | '\r' :: '\n' :: rest => passed 2 rest
  | x :: rest => if isBreak x then passed 1 rest else c
  | [] => c

/-- What a line break contributes to a scalar: the separators of Unicode themselves, else a line
feed. -/
def lineText (c : Cursor) : List Char :=
  match c.peek with
  | some x => if x.toNat = 0x2028 || x.toNat = 0x2029 then [x] else if isBreak x then ['\n'] else []
  | none => []

/-- The three characters ahead are a document mark that a gap follows, at the start of a line. -/
def atDocumentMark (c : Cursor) : Bool :=
  c.mark.column = 0 && c.gapAt 3
    && (c.rest.take 3 = ['-', '-', '-'] || c.rest.take 3 = ['.', '.', '.'])

/-- The comment lines that go on after the end of a comment: how many characters lie between, if a
comment sign follows nothing but blanks and breaks within reach. -/
def gapBeforeComment? : Nat → List Char → Option Nat
  | 0, _ => none
  | _ + 1, [] => none
  | reach + 1, x :: rest =>
    if x = '#' then some 0
    else if isBlank x || x = '\n' || x = '\r' then (gapBeforeComment? reach rest).map (· + 1)
    else none

/-- Passes characters up to the given index, line by line. -/
def skipTo (index : Nat) : Nat → Cursor → Cursor
  | 0, c => c
  | n + 1, c =>
    if index ≤ c.mark.index then c
    else skipTo index n (if c.atBreak then c.skipLine else c.skip)

/-- Passes a comment and the comment lines after it. -/
def skipComments : Nat → Cursor → Cursor
  | 0, c => c
  | n + 1, c =>
    let c := c.skipWhile fun x => !isBreak x
    match c.rest with
    | [] => c
    | x :: rest =>
      if x = '\n' || x = '\r' then
        match gapBeforeComment? 511 rest with
        | some gap => skipComments n (skipTo (c.mark.index + 1 + gap) (gap + 1) c)
        | none => c
      else c

/-- Passes a comment behind a word on the same line. -/
def skipLineComment (c : Cursor) : Cursor :=
  if 0 < c.newlines then c
  else
    let blanks := (c.rest.takeWhile isBlank).length
    if blanks < 512 && c.peekAt blanks = some '#' then c.skipWhile fun x => !isBreak x else c

end Cursor

end ScopedAggregation.Yaml
