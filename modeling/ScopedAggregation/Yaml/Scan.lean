import ScopedAggregation.Yaml.Scalar

namespace ScopedAggregation.Yaml

/-- A place where a key may have begun: the token that will be the key, and whether only a key can
stand there. -/
structure SimpleKey where
  possible : Bool := false
  required : Bool := false
  tokenNumber : Nat := 0
  mark : Mark := {}

/-- The state of scanning. Tokens are kept last one first; there is one possible key for each level
of flow collections, innermost first. -/
structure Scanner where
  cursor : Cursor
  tokens : List Token := []
  count : Nat := 0
  indent : Int := -1
  indents : List Int := []
  keyAllowed : Bool := true
  keys : List SimpleKey := [{}]
  flowLevel : Nat := 0

namespace Scanner

/-- How deeply collections may nest. -/
def maxDepth : Nat := 10000

def push (kind : TokenKind) (start stop : Mark) (s : Scanner) : Scanner :=
  { s with tokens := ⟨kind, start, stop⟩ :: s.tokens, count := s.count + 1 }

/-- Puts a token before the one of the given number. -/
def insertAt (number : Nat) (t : Token) (s : Scanner) : Scanner :=
  let newer := s.count - number
  { s with tokens := s.tokens.take newer ++ t :: s.tokens.drop newer, count := s.count + 1 }

/-- The innermost possible key. -/
def key (s : Scanner) : SimpleKey := s.keys.headD {}

def setKey (k : SimpleKey) (s : Scanner) : Scanner :=
  { s with keys := k :: s.keys.tail }

/-- Gives up the innermost possible key; one that is required must not be given up. -/
def dropKey (s : Scanner) : Option Scanner :=
  if s.key.possible && s.key.required then none
  else some (s.setKey { s.key with possible := false })

/-- Remembers that a key may begin here. -/
def saveKey (s : Scanner) : Option Scanner :=
  if s.keyAllowed then do
    let required := s.flowLevel = 0 && s.indent = (s.cursor.mark.column : Int)
    let fresh ← s.dropKey
    some (fresh.setKey ⟨true, required, s.count, s.cursor.mark⟩)
  else some s

/-- Whether the innermost possible key still is one here: it began on this line and not too long
ago. A required one must be. -/
def keyIsValid (s : Scanner) : Option Bool :=
  let k := s.key
  if !k.possible then some false
  else if k.mark.line < s.cursor.mark.line || k.mark.index + 1024 < s.cursor.mark.index then
    if k.required then none else some false
  else some true

/-- Opens a block collection at a column deeper than the present one. -/
def openBlock (column : Nat) (number : Option Nat) (kind : TokenKind) (mark : Mark)
    (s : Scanner) : Option Scanner :=
  if 0 < s.flowLevel then some s
  else if s.indent < (column : Int) then
    if maxDepth ≤ s.indents.length then none
    else
      let s := { s with indents := s.indent :: s.indents, indent := column }
      some (match number with
        | some n => s.insertAt n ⟨kind, mark, mark⟩
        | none => s.push kind mark mark)
  else some s

/-- Closes the block collections that are indented deeper than the column. -/
def closeBlocks (column : Int) (mark : Mark) : List Int → Scanner → Scanner
  | outer :: indents, s =>
    if column < s.indent then
      closeBlocks column mark indents
        { s.push .blockEnd mark mark with indent := outer, indents := indents }
    else s
  | [], s => s

/-- Closes block collections, except inside a flow collection. -/
def closeTo (column : Int) (mark : Mark) (s : Scanner) : Scanner :=
  if 0 < s.flowLevel then s else closeBlocks column mark s.indents s

/-- Passes blanks, comments and line breaks up to the next token. A new line may start a key in
block context; a tab may not stand where a key is allowed. -/
def skipToToken : Nat → Scanner → Scanner
  | 0, s => s
  | n + 1, s =>
    let c := s.cursor
    let c := if c.mark.column = 0 && c.peek = some (Char.ofNat 0xfeff) then c.skip else c
    let tabs := 0 < s.flowLevel || !s.keyAllowed
    let c := c.skipWhile fun x => x = ' ' || (tabs && x = '\t')
    let c := if c.peek = some '#' then c.skipComments n else c
    if c.atBreak then
      skipToToken n
        { s with cursor := c.skipLine, keyAllowed := s.keyAllowed || s.flowLevel = 0 }
    else { s with cursor := c }

/-- Takes a token of `width` characters. -/
def take (kind : TokenKind) (width : Nat) (s : Scanner) : Scanner :=
  let after := s.cursor.skipMany width
  { s.push kind s.cursor.mark after.mark with cursor := after }

def fetchStreamEnd (s : Scanner) : Option Scanner := do
  let m := s.cursor.mark
  let m := if m.column = 0 then m else { m with line := m.line + 1, column := 0 }
  let s := { s with cursor := { s.cursor with mark := m } }
  let s ← (s.closeTo (-1) m).dropKey
  some ({ s with keyAllowed := false }.push .streamEnd m m)

def fetchDocumentMark (kind : TokenKind) (s : Scanner) : Option Scanner := do
  let s ← (s.closeTo (-1) s.cursor.mark).dropKey
  some ({ s with keyAllowed := false }.take kind 3)

def fetchFlowStart (kind : TokenKind) (s : Scanner) : Option Scanner := do
  let s ← s.saveKey
  if maxDepth ≤ s.flowLevel then none
  else
    some ({ s with keys := {} :: s.keys, flowLevel := s.flowLevel + 1, keyAllowed := true }.take
      kind 1)

def fetchFlowEnd (kind : TokenKind) (s : Scanner) : Option Scanner := do
  let s ← s.dropKey
  let s :=
    if 0 < s.flowLevel then { s with keys := s.keys.tail, flowLevel := s.flowLevel - 1 } else s
  some ({ s with keyAllowed := false }.take kind 1)

def fetchFlowEntry (s : Scanner) : Option Scanner := do
  let s ← s.dropKey
  some ({ s with keyAllowed := true }.take .flowEntry 1)

/-- An entry or an explicit key; in block context it may open a collection at its column. -/
def fetchIndicator (kind opening : TokenKind) (keyAllowed : Bool) (s : Scanner) :
    Option Scanner := do
  let s ←
    if s.flowLevel = 0 then
      if s.keyAllowed then s.openBlock s.cursor.mark.column none opening s.cursor.mark else none
    else some s
  let s ← s.dropKey
  some ({ s with keyAllowed := keyAllowed }.take kind 1)

/-- The colon of a value. Behind a possible key it turns that into a key. -/
def fetchValue (s : Scanner) : Option Scanner := do
  let valid ← s.keyIsValid
  if valid then
    let k := s.key
    let s := s.insertAt k.tokenNumber ⟨.key, k.mark, k.mark⟩
    let s ← s.openBlock k.mark.column (some k.tokenNumber) .blockMappingStart k.mark
    let s := s.setKey { k with possible := false }
    some ({ s with keyAllowed := false }.take .value 1)
  else
    let s := s.setKey { s.key with possible := false }
    let s ←
      if s.flowLevel = 0 then
        if s.keyAllowed then
          s.openBlock s.cursor.mark.column none .blockMappingStart s.cursor.mark
        else none
      else some s
    some ({ s with keyAllowed := s.flowLevel = 0 }.take .value 1)

/-- An anchor or an alias: its name has to end at a gap or a sign. -/
def fetchAnchor (kind : Text → TokenKind) (s : Scanner) : Option Scanner := do
  let s ← s.saveKey
  let start := s.cursor.mark
  let name := s.cursor.skip.rest.takeWhile isWord
  let c := s.cursor.skip.skipMany name.length
  let ends := c.gapAt 0 || c.peek.any fun x =>
    x = '?' || x = ':' || x = ',' || x = ']' || x = '\x7d' || x = '%' || x = '@' || x.toNat = 0x60
  if name.isEmpty || !ends then none
  else
    some { { s with keyAllowed := false }.push (kind (encodeChars name)) start c.mark with
      cursor := c }

/-- The signs, letters aside, that may stand in a tag. -/
def isTagSign (x : Char) : Bool :=
  (";/?:@&=+$.,!~*()[]".toList).any (· = x) || x = apostrophe

/-- The number of bytes of a character by its first byte. -/
def leadWidth (octet : Nat) : Nat :=
  if octet < 0x80 then 1
  else if octet / 32 = 6 then 2
  else if octet / 16 = 14 then 3
  else if octet / 8 = 30 then 4
  else 0

/-- One escaped byte. -/
def octet? (c : Cursor) : Option Nat :=
  if c.peek = some '%' then hexNumber? 2 0 (c.rest.drop 1) else none

/-- The continuation bytes of an escaped character. -/
def readTailOctets : Nat → Cursor → Option (Text × Cursor)
  | 0, c => some ([], c)
  | n + 1, c => do
    let octet ← octet? c
    if octet / 64 = 2 then
      let (rest, c) ← readTailOctets n (c.skipMany 3)
      some (UInt8.ofNat octet :: rest, c)
    else none

/-- The characters of a tag, escapes resolved. -/
def readTagChars : Nat → Cursor → Option (Text × Cursor)
  | 0, c => some ([], c)
  | n + 1, c =>
    match c.peek with
    | none => some ([], c)
    | some x =>
      if x = '%' then do
        let lead ← octet? c
        if leadWidth lead = 0 then none
        else
          let (tail, c) ← readTailOctets (leadWidth lead - 1) (c.skipMany 3)
          let (rest, c) ← readTagChars n c
          some (UInt8.ofNat lead :: tail ++ rest, c)
      else if isWord x || isTagSign x then do
        let (rest, c) ← readTagChars n c.skip
        some (Utf8.encodeChar x ++ rest, c)
      else some ([], c)

/-- The part of a tag after its handle; `head` is what was read of it before. -/
def readTagPart (fuel : Nat) (head : Text) (c : Cursor) : Option (Text × Cursor) := do
  let (chars, c) ← readTagChars fuel c
  if head.isEmpty && chars.isEmpty then none else some (head.drop 1 ++ chars, c)

/-- A handle: an exclamation mark, name characters, and a second mark if there is one. -/
def readHandle (c : Cursor) : Option (Text × Cursor) :=
  if c.peek = some '!' then
    let name := c.skip.rest.takeWhile isWord
    let c := c.skip.skipMany name.length
    if c.peek = some '!' then some (encodeChars ('!' :: name ++ ['!']), c.skip)
    else some (encodeChars ('!' :: name), c)
  else none

/-- The handle and the rest of a tag. -/
def readTag (fuel : Nat) (c : Cursor) : Option (Text × Text × Cursor) :=
  if c.peekAt 1 = some '<' then do
    let (suffix, c) ← readTagPart fuel [] (c.skipMany 2)
    if c.peek = some '>' then some ([], suffix, c.skip) else none
  else do
    let (handle, c) ← readHandle c
    if 1 < handle.length && handle.getLast? = some 0x21 then
      let (suffix, c) ← readTagPart fuel [] c
      some (handle, suffix, c)
    else
      let (suffix, c) ← readTagPart fuel handle c
      if suffix.isEmpty then some ([], handle, c) else some (text "!", suffix, c)

def fetchTag (fuel : Nat) (s : Scanner) : Option Scanner := do
  let s ← s.saveKey
  let (handle, suffix, c) ← readTag fuel s.cursor
  if c.gapAt 0 then
    some { { s with keyAllowed := false }.push (.tag handle suffix) s.cursor.mark c.mark with
      cursor := c }
  else none

def fetchBlockScalar (fuel : Nat) (literal : Bool) (s : Scanner) : Option Scanner := do
  let s ← s.dropKey
  let (chars, stop, c) ← readBlock literal s.indent fuel s.cursor.skip
  let style := if literal then ScalarStyle.literal else ScalarStyle.folded
  some { { s with keyAllowed := true }.push (.scalar (encodeChars chars) style) s.cursor.mark stop
    with cursor := c }

def fetchQuoted (fuel : Nat) (single : Bool) (s : Scanner) : Option Scanner := do
  let s ← s.saveKey
  let (chars, c) ← readQuoted single fuel [] s.cursor.skip
  let style := if single then ScalarStyle.singleQuoted else ScalarStyle.doubleQuoted
  some { { s with keyAllowed := false }.push (.scalar (encodeChars chars) style) s.cursor.mark
    c.mark with cursor := c }

def fetchPlain (fuel : Nat) (s : Scanner) : Option Scanner := do
  let s ← s.saveKey
  let r ← readPlain (0 < s.flowLevel) (s.indent + 1) fuel
    { stop := s.cursor.mark, cursor := s.cursor }
  let content := encodeChars r.pieces.reverse.flatten
  some { { s with keyAllowed := r.gap.broken }.push (.scalar content .plain) s.cursor.mark r.stop
    with cursor := r.cursor }

/-- A version number of at most two digits. -/
def readVersionNumber (c : Cursor) : Option (Nat × Cursor) :=
  let digits := c.rest.takeWhile Char.isDigit
  if digits.isEmpty || 2 < digits.length then none
  else
    some (digits.foldl (fun n x => n * 10 + (x.toNat - 0x30)) 0, c.skipMany digits.length)

/-- The value of a version directive. -/
def readVersion (c : Cursor) : Option (TokenKind × Cursor) := do
  let (major, c) ← readVersionNumber (c.skipWhile isBlank)
  if c.peek = some '.' then
    let (minor, c) ← readVersionNumber c.skip
    some (.version major minor, c)
  else none

/-- The value of a tag directive: a handle and what it stands for. -/
def readShorthand (fuel : Nat) (c : Cursor) : Option (TokenKind × Cursor) := do
  let (handle, c) ← readHandle (c.skipWhile isBlank)
  if handle ≠ text "!" && (handle.length < 2 || handle.getLast? ≠ some 0x21) then none
  else if !c.atBlank then none
  else
    let (start, c) ← readTagPart fuel [] (c.skipWhile isBlank)
    if c.gapAt 0 then some (.tagShorthand handle start, c) else none

def fetchDirective (fuel : Nat) (s : Scanner) : Option Scanner := do
  let s ← (s.closeTo (-1) s.cursor.mark).dropKey
  let name := s.cursor.skip.rest.takeWhile isWord
  let c := s.cursor.skip.skipMany name.length
  if name.isEmpty || !c.gapAt 0 then none
  else
    let (kind, c) ←
      if name = ['Y', 'A', 'M', 'L'] then readVersion c
      else if name = ['T', 'A', 'G'] then readShorthand fuel c
      else none
    let stop := c.mark
    let c := c.skipWhile isBlank
    let c := if c.peek = some '#' then c.skipWhile (fun x => !isBreak x) else c
    if c.atLineEnd then
      some { { s with keyAllowed := false }.push kind s.cursor.mark stop with cursor := c.skipLine }
    else none

/-- The signs that start no plain scalar. -/
def isIndicator (x : Char) : Bool :=
  ("-?:,[]\x7b\x7d#&*!|>\"%@".toList).any (· = x) || x = apostrophe || x.toNat = 0x60

/-- Fetches the token that begins here, behind the document marks. -/
def fetchContent (fuel : Nat) (x : Char) (s : Scanner) : Option Scanner :=
  let c := s.cursor
  let flow := 0 < s.flowLevel
  if x = '[' then s.fetchFlowStart .flowSequenceStart
  else if x = '\x7b' then s.fetchFlowStart .flowMappingStart
  else if x = ']' then s.fetchFlowEnd .flowSequenceEnd
  else if x = '\x7d' then s.fetchFlowEnd .flowMappingEnd
  else if x = ',' then s.fetchFlowEntry
  else if x = '-' && c.gapAt 1 then s.fetchIndicator .blockEntry .blockSequenceStart true
  else if x = '?' && (flow || c.gapAt 1) then
    s.fetchIndicator .key .blockMappingStart (s.flowLevel = 0)
  else if x = ':' && (flow || c.gapAt 1) then s.fetchValue
  else if x = '*' then s.fetchAnchor .backReference
  else if x = '&' then s.fetchAnchor .anchor
  else if x = '!' then s.fetchTag fuel
  else if x = '|' && !flow then s.fetchBlockScalar fuel true
  else if x = '>' && !flow then s.fetchBlockScalar fuel false
  else if x = apostrophe then s.fetchQuoted fuel true
  else if x = '"' then s.fetchQuoted fuel false
  else if (!isIndicator x && !isBlank x && !isBreak x)
      || (x = '-' && !(c.peekAt 1).any isBlank)
      || (!flow && (x = '?' || x = ':') && !c.gapAt 1) then
    s.fetchPlain fuel
  else none

/-- Passes a comment behind the last token, unless that is the indicator of an entry. -/
def skipLineComment (s : Scanner) : Scanner :=
  match s.tokens with
  | ⟨.blockEntry, _, _⟩ :: _ => s
  | _ => { s with cursor := s.cursor.skipLineComment }

/-- Fetches the next token. -/
def fetch (fuel : Nat) (broken : Bool) (s : Scanner) : Option Scanner :=
  let before := s.cursor.mark
  let s := s.skipToToken fuel
  let s := s.closeTo s.cursor.mark.column before
  if broken && (s.cursor.rest.drop 3).isEmpty then none
  else
    match s.cursor.peek with
    | none => s.fetchStreamEnd
    | some x =>
      if s.cursor.mark.column = 0 && x = '%' then s.fetchDirective fuel
      else if s.cursor.atDocumentMark then
        s.fetchDocumentMark (if x = '-' then .documentStart else .documentEnd)
      else (s.fetchContent fuel x).map skipLineComment

/-- Fetches tokens up to the end or the first fault; the flag tells which. -/
def fetchAll (broken : Bool) : Nat → Scanner → Scanner × Bool
  | 0, s => (s, false)
  | n + 1, s =>
    match s.fetch (n + 1) broken with
    | none => (s, false)
    | some s =>
      match s.tokens with
      | ⟨.streamEnd, _, _⟩ :: _ => (s, true)
      | _ => fetchAll broken n s

end Scanner

/-- The tokens of a source in order, and whether they are all of it. -/
def scan (source : Text) : List Token × Bool :=
  let input := Input.ofSource (if source.isEmpty then [Ascii.newline] else source)
  let start : Scanner := { cursor := { rest := input.chars } }
  let (s, complete) :=
    Scanner.fetchAll input.broken (input.chars.length + 2) (start.push .streamStart {} {})
  (s.tokens.reverse, complete)

end ScopedAggregation.Yaml
