import ScopedAggregation.Yaml.Scan
import ScopedAggregation.Yaml.Tag

namespace ScopedAggregation.Yaml

/-- A node and the line that it starts on. -/
inductive Node where
  | scalar (line : Nat) (kind : ScalarKind) (style : ScalarStyle) (value : Text)
  | sequence (line : Nat) (items : List Node)
  | mapping (line : Nat) (entries : List (Node × Node))
  | backReference (line : Nat) (name : Text) (target : Nat)
deriving Inhabited

namespace Node

def line : Node → Nat
  | .scalar n .. => n
  | .sequence n _ => n
  | .mapping n _ => n
  | .backReference n .. => n

/-- The text of a node itself: of an alias its name, of a collection nothing. -/
def value : Node → Text
  | .scalar _ _ _ v => v
  | .backReference _ name _ => name
  | _ => []

/-- A scalar without content. -/
def blank (m : Mark) : Node := .scalar (m.line + 1) .null .plain []

end Node

/-- A document: its root, and its anchored nodes by number. -/
structure Document where
  root : Node
  anchored : List (Nat × Node) := []

/-- The node of the given number. -/
def Document.node? (d : Document) (target : Nat) : Option Node :=
  (d.anchored.find? (·.1 = target)).map (·.2)

/-- The tokens ahead, whether they are all of the source, the tag shorthands, and the anchors seen
so far, the latest first. -/
structure Composer where
  tokens : List Token
  complete : Bool
  shorthands : List (Text × Text) := []
  anchors : List (Text × Nat) := []
  anchored : List (Nat × Node) := []

/-- Reading nodes; it fails where the source is malformed. -/
abbrev Composing := StateT Composer Option

namespace Composing

/-- The next token. It is known only when two more have been read, or the end. -/
def peek : Composing Token := fun s =>
  match s.tokens with
  | t :: _ :: _ :: _ => some (t, s)
  | t :: _ => if s.complete then some (t, s) else none
  | [] => none

def skip : Composing Unit := modify fun s => { s with tokens := s.tokens.tail }

/-- The anchor and the tag in front of a node. -/
structure Properties where
  start : Mark
  anchor : Option Text := none
  tag : Option Text := none

/-- The tag that a handle and the rest of a tag stand for. -/
def expandTag (handle suffix : Text) : Composing Text := fun s =>
  if handle = [] then some (suffix, s)
  else match s.shorthands.find? (·.1 = handle) with
    | some (_, start) => some (start ++ suffix, s)
    | none => none

def readAnchor (p : Properties) : Composing Properties := do
  match (← peek).kind with
  | .anchor name =>
    skip
    pure { p with anchor := some name }
  | _ => pure p

def readTag (p : Properties) : Composing Properties := do
  match (← peek).kind with
  | .tag handle suffix =>
    skip
    let tag ← expandTag handle suffix
    pure { p with tag := some tag }
  | _ => pure p

/-- Reads an anchor and a tag in either order. -/
def readProperties : Composing Properties := do
  let t ← peek
  let p : Properties := { start := t.start }
  match t.kind with
  | .tag .. => readTag p >>= readAnchor
  | _ => readAnchor p >>= readTag

/-- Gives the node that begins here its number, if it has an anchor. -/
def openAnchor : Option Text → Composing (Option Nat)
  | none => pure none
  | some name => fun s =>
    let number := s.anchors.length
    some (some number, { s with anchors := (name, number) :: s.anchors })

/-- Keeps an anchored node that has been read. -/
def closeAnchor (number : Option Nat) (node : Node) : Composing Node := fun s =>
  match number with
  | none => some (node, s)
  | some n => some (node, { s with anchored := (n, node) :: s.anchored })

/-- The node that an alias refers to is the latest of that anchor. -/
def aliasNode (m : Mark) (name : Text) : Composing Node := fun s =>
  match s.anchors.find? (·.1 = name) with
  | some (_, target) => some (.backReference (m.line + 1) name target, s)
  | none => none

/-- Properties alone make an empty scalar. -/
def readEmpty (p : Properties) (number : Option Nat) : Composing Node :=
  if p.anchor.isNone && p.tag.isNone then failure
  else closeAnchor number (.scalar (p.start.line + 1) (scalarKind p.tag .plain []) .plain [])

/-- Passes the comma between the items of a flow collection. -/
def readComma (t : Token) : Composing Token := do
  if t.kind = .flowEntry then
    skip
    peek
  else failure

mutual

/-- Reads a node. Block collections may begin only in block context, and a sequence without an
indentation of its own only inside a mapping. -/
def readNode (block indentless : Bool) : Nat → Composing Node
  | 0 => failure
  | n + 1 => do
    let t ← peek
    match t.kind with
    | .backReference name =>
      skip
      aliasNode t.start name
    | _ =>
      let p ← readProperties
      let line := p.start.line + 1
      let t ← peek
      let number ← openAnchor p.anchor
      match t.kind with
      | .blockEntry =>
        if indentless then
          let items ← readIndentless [] n
          closeAnchor number (.sequence line items)
        else readEmpty p number
      | .scalar content style =>
        skip
        closeAnchor number (.scalar line (scalarKind p.tag style content) style content)
      | .flowSequenceStart =>
        skip
        let items ← readFlowItems true [] n
        closeAnchor number (.sequence line items)
      | .flowMappingStart =>
        skip
        let entries ← readFlowEntries true [] n
        closeAnchor number (.mapping line entries)
      | .blockSequenceStart =>
        if block then
          skip
          let items ← readBlockItems [] n
          closeAnchor number (.sequence line items)
        else readEmpty p number
      | .blockMappingStart =>
        if block then
          skip
          let entries ← readBlockEntries [] n
          closeAnchor number (.mapping line entries)
        else readEmpty p number
      | _ => readEmpty p number

/-- Reads a node unless one of the given tokens comes next; then it is an empty scalar. -/
def readNodeUnless (ends : List TokenKind) (m : Option Mark) (block indentless : Bool) :
    Nat → Composing Node
  | 0 => failure
  | n + 1 => do
    let t ← peek
    if ends.any (· = t.kind) then pure (.blank (m.getD t.start))
    else readNode block indentless n

/-- Reads the entries of a block sequence; those read so far come last one first. -/
def readBlockItems (items : List Node) : Nat → Composing (List Node)
  | 0 => failure
  | n + 1 => do
    let t ← peek
    match t.kind with
    | .blockEntry =>
      skip
      let item ← readNodeUnless [.blockEntry, .blockEnd] (some t.stop) true false n
      readBlockItems (item :: items) n
    | .blockEnd =>
      skip
      pure items.reverse
    | _ => failure

/-- Reads the entries of a sequence that stands at the indentation of its mapping. -/
def readIndentless (items : List Node) : Nat → Composing (List Node)
  | 0 => failure
  | n + 1 => do
    let t ← peek
    match t.kind with
    | .blockEntry =>
      skip
      let item ← readNodeUnless [.blockEntry, .key, .value, .blockEnd] (some t.stop) true false n
      readIndentless (item :: items) n
    | _ => pure items.reverse

/-- Reads the entries of a block mapping. -/
def readBlockEntries (entries : List (Node × Node)) : Nat → Composing (List (Node × Node))
  | 0 => failure
  | n + 1 => do
    let t ← peek
    match t.kind with
    | .key =>
      skip
      let key ← readNodeUnless [.key, .value, .blockEnd] (some t.stop) true true n
      let t ← peek
      match t.kind with
      | .value =>
        skip
        let value ← readNodeUnless [.key, .value, .blockEnd] (some t.stop) true true n
        readBlockEntries ((key, value) :: entries) n
      | _ => readBlockEntries ((key, .blank t.start) :: entries) n
    | .blockEnd =>
      skip
      pure entries.reverse
    | _ => failure

/-- Reads the items of a flow sequence; a key among them makes a mapping with one entry. -/
def readFlowItems (first : Bool) (items : List Node) : Nat → Composing (List Node)
  | 0 => failure
  | n + 1 => do
    let t ← peek
    if t.kind = .flowSequenceEnd then
      skip
      pure items.reverse
    else
      let t ← if first then pure t else readComma t
      if t.kind = .flowSequenceEnd then
        skip
        pure items.reverse
      else if t.kind = .key then
        skip
        let entry ← readFlowPair n
        readFlowItems false (.mapping (t.start.line + 1) [entry] :: items) n
      else
        let item ← readNode false false n
        readFlowItems false (item :: items) n

/-- Reads a key and its value inside a flow sequence. An empty key takes the place of the token that
follows. -/
def readFlowPair : Nat → Composing (Node × Node)
  | 0 => failure
  | n + 1 => do
    let t ← peek
    let key ←
      if t.kind = .value || t.kind = .flowEntry || t.kind = .flowSequenceEnd then do
        skip
        pure (Node.blank t.stop)
      else readNode false false n
    let t ← peek
    if t.kind = .value then
      skip
      let value ← readNodeUnless [.flowEntry, .flowSequenceEnd] (some t.start) false false n
      pure (key, value)
    else pure (key, .blank t.start)

/-- Reads the entries of a flow mapping. -/
def readFlowEntries (first : Bool) (entries : List (Node × Node)) :
    Nat → Composing (List (Node × Node))
  | 0 => failure
  | n + 1 => do
    let t ← peek
    if t.kind = .flowMappingEnd then
      skip
      pure entries.reverse
    else
      let t ← if first then pure t else readComma t
      if t.kind = .flowMappingEnd then
        skip
        pure entries.reverse
      else if t.kind = .key then
        skip
        let key ← readNodeUnless [.value, .flowEntry, .flowMappingEnd] none false false n
        let t ← peek
        if t.kind = .value then
          skip
          let value ← readNodeUnless [.flowEntry, .flowMappingEnd] none false false n
          readFlowEntries false ((key, value) :: entries) n
        else readFlowEntries false ((key, .blank t.start) :: entries) n
      else
        let key ← readNode false false n
        let t ← peek
        readFlowEntries false ((key, .blank t.start) :: entries) n

end

/-- Reads the directives of a document: one version at most, which must be 1.1, and one shorthand
for each handle. -/
def readDirectives (version : Bool) : Nat → Composing Unit
  | 0 => failure
  | n + 1 => do
    let t ← peek
    match t.kind with
    | .version major minor =>
      if version || major ≠ 1 || minor ≠ 1 then failure
      else
        skip
        readDirectives true n
    | .tagShorthand handle start =>
      if (← get).shorthands.any (·.1 = handle) then failure
      else
        modify fun s => { s with shorthands := s.shorthands ++ [(handle, start)] }
        skip
        readDirectives version n
    | _ => pure ()

/-- The shorthands that every document has, unless it gives them another meaning. -/
def standardShorthands : List (Text × Text) :=
  [(text "!", text "!"), (text "!!", standardTagStart)]

/-- The tokens that start or end a document. -/
def isBoundary : TokenKind → Bool
  | .version .. | .tagShorthand .. | .documentStart | .documentEnd | .streamEnd => true
  | _ => false

/-- Reads the root behind the start of a document. -/
def readRoot (fuel : Nat) : Composing Node := do
  let t ← peek
  if isBoundary t.kind then pure (.blank t.start) else readNode true false fuel

/-- Reads the first document; there may be none. -/
def readDocument (fuel : Nat) : Composing (Option Document) := do
  skip
  let t ← peek
  if t.kind = .streamEnd then pure none
  else
    readDirectives false fuel
    modify fun s => { s with shorthands := s.shorthands ++ standardShorthands }
    let explicit := isBoundary t.kind && t.kind ≠ .documentEnd
    let root ←
      if explicit then do
        if (← peek).kind = .documentStart then
          skip
          readRoot fuel
        else failure
      else readNode true false fuel
    let _ ← peek
    pure (some ⟨root, (← get).anchored⟩)

end Composing

/-- The source is no YAML. What is wrong with it is not told apart. -/
inductive Malformed where
  | malformed
deriving DecidableEq, Repr

def Malformed.message : Malformed → Text
  | .malformed => text "yaml: unknown problem parsing YAML content"

/-- Reads the first document of a source; an empty source has none. -/
def read (source : Text) : Except Malformed (Option Document) :=
  let (tokens, complete) := scan source
  let start : Composer := { tokens := tokens, complete := complete }
  match Composing.readDocument (4 * tokens.length + 8) start with
  | some (document, _) => .ok document
  | none => .error .malformed

end ScopedAggregation.Yaml
