import ScopedAggregation.Yaml.Token

namespace ScopedAggregation.Yaml

/-- White space between the words of a scalar: blanks on one line, or a first line break and those
after it. -/
structure Gap where
  blanks : List Char := []
  first : List Char := []
  later : List Char := []
  broken : Bool := false

namespace Gap

/-- What the white space contributes to the scalar. -/
def folded (g : Gap) : List Char :=
  if g.broken then
    if g.first.head? = some '\n' then (if g.later.isEmpty then [' '] else g.later)
    else g.first ++ g.later
  else g.blanks

end Gap

/-- Reads white space. With an indentation, a tab that stands before it on a later line is
refused. -/
def readGap (indent : Option Int) : Nat → Gap → Cursor → Option (Gap × Cursor)
  | 0, g, c => some (g, c)
  | n + 1, g, c =>
    match c.peek with
    | none => some (g, c)
    | some x =>
      if isBlank x then
        if g.broken then
          if x = '\t' && indent.any (fun i => (c.mark.column : Int) < i) then none
          else readGap indent n g c.skip
        else
          let blanks := c.rest.takeWhile isBlank
          readGap indent n { g with blanks := blanks } (c.skipMany blanks.length)
      else if isBreak x then
        if g.broken then readGap indent n { g with later := g.later ++ c.lineText } c.skipLine
        else readGap indent n { first := c.lineText, broken := true } c.skipLine
      else some (g, c)

/-- The signs that end a plain scalar inside a flow collection. -/
def endsFlowWord (x : Char) : Bool :=
  x = ',' || x = '?' || x = '[' || x = ']' || x = '\x7b' || x = '\x7d'

/-- The characters of a plain scalar up to white space or a sign that ends it. -/
def plainWord (flow : Bool) : List Char → List Char
  | [] => []
  | x :: rest =>
    if isBlank x || isBreak x then []
    else if x = ':' && isGap rest.head? then []
    else if flow && endsFlowWord x then []
    else x :: plainWord flow rest

/-- A plain scalar being read: its pieces so far, the last one first, the white space after them,
and the place where they end. -/
structure PlainRead where
  pieces : List (List Char) := []
  gap : Gap := {}
  stop : Mark
  cursor : Cursor

/-- Reads on in a plain scalar. -/
def readPlain (flow : Bool) (indent : Int) : Nat → PlainRead → Option PlainRead
  | 0, r => some r
  | n + 1, r =>
    if r.cursor.atDocumentMark || r.cursor.peek = some '#' then some r
    else
      let word := plainWord flow r.cursor.rest
      let cursor := r.cursor.skipMany word.length
      let r : PlainRead :=
        if word.isEmpty then { r with cursor := cursor }
        else
          { pieces := word :: r.gap.folded :: r.pieces, gap := {}, stop := cursor.mark,
            cursor := cursor }
      if r.cursor.atBlank || r.cursor.atBreak then
        match readGap (some indent) n r.gap r.cursor with
        | none => none
        | some (gap, cursor) =>
          let r := { r with gap := gap, cursor := cursor }
          if !flow && (cursor.mark.column : Int) < indent then some r
          else readPlain flow indent n r
      else some r

/-- The value of a hexadecimal digit. -/
def hexDigit? (x : Char) : Option Nat :=
  if x.toNat < 0x80 then Ascii.hexValue? (UInt8.ofNat x.toNat) else none

/-- The number that exactly `n` hexadecimal digits denote. -/
def hexNumber? : Nat → Nat → List Char → Option Nat
  | 0, value, _ => some value
  | _ + 1, _, [] => none
  | n + 1, value, x :: rest => (hexDigit? x).bind fun d => hexNumber? n (value * 16 + d) rest

/-- The character of an escape of one letter. -/
def shortEscape? (x : Char) : Option Char :=
  match x with
  | '0' => some (Char.ofNat 0)
  | 'a' => some (Char.ofNat 0x07)
  | 'b' => some (Char.ofNat 0x08)
  | 't' => some '\t'
  | '\t' => some '\t'
  | 'n' => some '\n'
  | 'v' => some (Char.ofNat 0x0b)
  | 'f' => some (Char.ofNat 0x0c)
  | 'r' => some '\r'
  | 'e' => some (Char.ofNat 0x1b)
  | ' ' => some ' '
  | '"' => some '"'
  | '\\' => some '\\'
  | 'N' => some (Char.ofNat 0x85)
  | '_' => some (Char.ofNat 0xa0)
  | 'L' => some (Char.ofNat 0x2028)
  | 'P' => some (Char.ofNat 0x2029)
  | x => if x.toNat = 0x27 then some x else none

/-- The number of digits of an escape by number. -/
def escapeDigits? (x : Char) : Option Nat :=
  match x with
  | 'x' => some 2
  | 'u' => some 4
  | 'U' => some 8
  | _ => none

/-- Reads an escape, the backslash of which comes next. -/
def readEscape (c : Cursor) : Option (Char × Cursor) := do
  let x ← c.peekAt 1
  match escapeDigits? x with
  | some n =>
    let value ← hexNumber? n 0 (c.rest.drop 2)
    if (0xd800 ≤ value && value ≤ 0xdfff) || 0x10ffff < value then none
    else some (Char.ofNat value, c.skipMany (n + 2))
  | none =>
    let y ← shortEscape? x
    some (y, c.skipMany 2)

/-- The single quote. -/
def apostrophe : Char := Char.ofNat 0x27

/-- The characters of a quoted scalar up to white space or its closing quote, the last one first.
The flag tells that an escaped line break ended them. -/
def readQuotedWord (single : Bool) : Nat → List Char → Cursor → Option (List Char × Bool × Cursor)
  | 0, acc, c => some (acc, false, c)
  | n + 1, acc, c =>
    match c.peek with
    | none => some (acc, false, c)
    | some x =>
      if isBlank x || isBreak x then some (acc, false, c)
      else if single then
        if x = apostrophe then
          if c.peekAt 1 = some apostrophe then
            readQuotedWord single n (apostrophe :: acc) (c.skipMany 2)
          else some (acc, false, c)
        else readQuotedWord single n (x :: acc) c.skip
      else if x = '"' then some (acc, false, c)
      else if x = '\\' then
        if (c.peekAt 1).any isBreak then some (acc, true, c.skip.skipLine)
        else
          match readEscape c with
          | some (y, c) => readQuotedWord single n (y :: acc) c
          | none => none
      else readQuotedWord single n (x :: acc) c.skip

/-- Reads on in a quoted scalar, up to and including its closing quote. The pieces read so far come
last one first. -/
def readQuoted (single : Bool) : Nat → List (List Char) → Cursor → Option (List Char × Cursor)
  | 0, _, _ => none
  | n + 1, pieces, c =>
    if c.atDocumentMark || c.peek.isNone then none
    else
      match readQuotedWord single (n + 1) [] c with
      | none => none
      | some (word, joined, c) =>
        let pieces := word.reverse :: pieces
        let quote := if single then apostrophe else '"'
        if c.peek = some quote then some (pieces.reverse.flatten, c.skip)
        else
          match readGap none n { broken := joined } c with
          | none => none
          | some (gap, c) => readQuoted single n (gap.folded :: pieces) c

/-- What is kept of the line breaks at the end of a block scalar. -/
inductive Chomping where
  | strip
  | clip
  | keep
deriving DecidableEq

/-- The header of a block scalar: chomping and indentation indicators in either order. -/
def readBlockHeader (c : Cursor) : Option (Chomping × Nat × Cursor) :=
  let chomping? (c : Cursor) : Option Chomping :=
    if c.peek = some '+' then some .keep else if c.peek = some '-' then some .strip else none
  let digit? (c : Cursor) : Option Nat :=
    c.peek.bind fun x => if x.isDigit then some (x.toNat - 0x30) else none
  match chomping? c with
  | some chomping =>
    match digit? c.skip with
    | some 0 => none
    | some d => some (chomping, d, c.skip.skip)
    | none => some (chomping, 0, c.skip)
  | none =>
    match digit? c with
    | some 0 => none
    | some d =>
      match chomping? c.skip with
      | some chomping => some (chomping, d, c.skip.skip)
      | none => some (.clip, d, c.skip)
    | none => some (.clip, 0, c)

/-- Passes indentation and empty lines of a block scalar: the line breaks passed, the greatest
column reached, and the place after the last break. Without an indentation all spaces count to it;
a tab in it is refused. -/
def blockBreaks (indent : Nat) :
    Nat → List Char → Nat → Mark → Cursor → Option (List Char × Nat × Mark × Cursor)
  | 0, breaks, widest, stop, c => some (breaks, widest, stop, c)
  | n + 1, breaks, widest, stop, c =>
    let spaces := (c.rest.takeWhile (· = ' ')).length
    let c := c.skipMany (if indent = 0 then spaces else min spaces (indent - c.mark.column))
    let widest := max widest c.mark.column
    if (indent = 0 || c.mark.column < indent) && c.peek = some '\t' then none
    else if c.atBreak then
      let next := c.skipLine
      blockBreaks indent n (breaks ++ c.lineText) widest next.mark next
    else some (breaks, widest, stop, c)

/-- A block scalar being read: its pieces so far, the last one first, the break after its last
line, and the breaks after that. -/
structure BlockRead where
  pieces : List (List Char) := []
  lead : List Char := []
  trail : List Char
  leadBlank : Bool := false
  stop : Mark
  cursor : Cursor

/-- Reads the lines of a block scalar at its indentation. -/
def readBlockLines (literal : Bool) (indent : Nat) : Nat → BlockRead → Option BlockRead
  | 0, r => some r
  | n + 1, r =>
    if r.cursor.mark.column = indent && r.cursor.peek.isSome then
      let blank := r.cursor.atBlank
      let folds := !literal && !r.leadBlank && !blank && r.lead.head? = some '\n'
      let before := if folds then (if r.trail.isEmpty then [' '] else []) else r.lead
      let line := r.cursor.rest.takeWhile fun x => !isBreak x
      let c := r.cursor.skipMany line.length
      let lead := c.lineText
      let c := c.skipLine
      match blockBreaks indent n [] 0 c.mark c with
      | none => none
      | some (trail, _, stop, c) =>
        readBlockLines literal indent n
          { pieces := line :: r.trail :: before :: r.pieces, lead := lead, trail := trail,
            leadBlank := blank, stop := stop, cursor := c }
    else some r

/-- Reads a block scalar behind its indicator, inside collections of the given indentation. -/
def readBlock (literal : Bool) (outer : Int) (fuel : Nat) (c : Cursor) :
    Option (List Char × Mark × Cursor) := do
  let (chomping, increment, c) ← readBlockHeader c
  let c := c.skipWhile isBlank
  let c := if c.peek = some '#' then c.skipWhile (fun x => !isBreak x) else c
  if !c.atLineEnd then none
  else
    let c := c.skipLine
    let given : Nat :=
      if increment = 0 then 0
      else if 0 ≤ outer then outer.toNat + increment else increment
    let (trail, widest, stop, c) ← blockBreaks given fuel [] 0 c.mark c
    let indent := if given = 0 then max (max widest (outer + 1).toNat) 1 else given
    let r ← readBlockLines literal indent fuel
      { trail := trail, stop := stop, cursor := c }
    let tail := match chomping with
      | .strip => []
      | .clip => r.lead
      | .keep => r.lead ++ r.trail
    some (r.pieces.reverse.flatten ++ tail, r.stop, r.cursor)

end ScopedAggregation.Yaml
