import ScopedAggregation.Formula.Parser

namespace ScopedAggregation.Formula

/-- The mark that opens an embedded formula. -/
def opening : Text := [Ascii.dollar, Ascii.openBrace]

def isQuote (b : UInt8) : Bool := b = Ascii.doubleQuote || b = Ascii.singleQuote

def isOpening (b : UInt8) : Bool :=
  b = Ascii.openBrace || b = Ascii.openParen || b = Ascii.openBracket

def isClosing (b : UInt8) : Bool :=
  b = Ascii.closeBrace || b = Ascii.closeParen || b = Ascii.closeBracket

/-- Whether brackets of all kinds are balanced outside quoted strings, at the given depth and
inside the given quote. -/
def balancedFrom : Nat → Option UInt8 → Text → Bool
  | depth, _, [] => depth = 0
  | depth, some quote, 0x5c :: _ :: rest => balancedFrom depth (some quote) rest
  | depth, some quote, b :: rest =>
    balancedFrom depth (if b = quote then none else some quote) rest
  | depth, none, b :: rest =>
    if isQuote b then balancedFrom depth (some b) rest
    else if isOpening b then balancedFrom (depth + 1) none rest
    else if isClosing b then
      match depth with
      | 0 => false
      | depth + 1 => balancedFrom depth none rest
    else balancedFrom depth none rest

def isBalanced (s : Text) : Bool := balancedFrom 0 none s

/-- Splits at the brace that closes the formula begun before: the formula and what follows the
brace. `depth` counts the inner braces still open. -/
def splitFormula? : Nat → Option UInt8 → Text → Option (Text × Text)
  | _, _, [] => none
  | depth, some quote, 0x5c :: b :: rest =>
    (splitFormula? depth (some quote) rest).map fun (s, t) => (Ascii.backslash :: b :: s, t)
  | depth, some quote, b :: rest =>
    (splitFormula? depth (if b = quote then none else some quote) rest).map
      fun (s, t) => (b :: s, t)
  | depth, none, b :: rest =>
    if isQuote b then (splitFormula? depth (some b) rest).map fun (s, t) => (b :: s, t)
    else if b = Ascii.openBrace then
      (splitFormula? (depth + 1) none rest).map fun (s, t) => (b :: s, t)
    else if b = Ascii.closeBrace then
      match depth with
      | 0 => some ([], rest)
      | depth + 1 => (splitFormula? depth none rest).map fun (s, t) => (b :: s, t)
    else (splitFormula? depth none rest).map fun (s, t) => (b :: s, t)

/-- The parts of a text in order: literal texts, and formulas where they stand. -/
def parts : Nat → Text → Except Fault (List Expr)
  | 0, _ => .ok []
  | _ + 1, [] => .ok []
  | n + 1, s =>
    match Text.cut? opening s with
    | none => .ok [.literal (.string s)]
    | some (before, rest) =>
      match splitFormula? 0 none rest with
      | none => .error .openExpression
      | some (source, rest) =>
        match parse source with
        | .error fault => .error (.inExpression source fault)
        | .ok e => do
          let es ← parts n rest
          pure (if before = [] then e :: es else .literal (.string before) :: e :: es)

/-- The single part, or all parts joined to one string. -/
def joined : List Expr → Expr
  | [e] => e
  | es => .operator (text "$concat") es

/-- The formula inside a text that is, white space aside, exactly one formula. -/
def lone? (s : Text) : Option Text :=
  let trimmed := Text.trim s
  match Text.after? opening trimmed with
  | none => none
  | some rest =>
    if rest.getLast? = some Ascii.closeBrace then
      let inner := rest.dropLast
      if isBalanced inner && !Text.includes opening inner then some inner else none
    else none

/-- Reads a text with embedded formulas; there is nothing to read in a text without one. -/
def parseTemplate (s : Text) : Except Fault (Option Expr) :=
  if Text.includes opening s then
    match lone? s with
    | some inner => (parse inner).map some
    | none => (parts (s.length + 1) s).map fun es => some (joined es)
  else .ok none

end ScopedAggregation.Formula
