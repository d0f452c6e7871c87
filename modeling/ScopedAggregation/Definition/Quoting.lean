import ScopedAggregation.Formula.Template

namespace ScopedAggregation.Definition

/-- Splits behind the brace that closes the first open one: everything up to and including the
brace, and what follows it. `depth` counts the open braces; a quoted string hides what is in it. -/
def splitBraces? : Nat → Option UInt8 → Text → Option (Text × Text)
  | _, _, [] => none
  | depth, some quote, 0x5c :: b :: rest =>
    (splitBraces? depth (some quote) rest).map fun (s, t) => (Ascii.backslash :: b :: s, t)
  | depth, some quote, b :: rest =>
    (splitBraces? depth (if b = quote then none else some quote) rest).map
      fun (s, t) => (b :: s, t)
  | depth, none, b :: rest =>
    if Formula.isQuote b then (splitBraces? depth (some b) rest).map fun (s, t) => (b :: s, t)
    else if b = Ascii.openBrace then
      (splitBraces? (depth + 1) none rest).map fun (s, t) => (b :: s, t)
    else if b = Ascii.closeBrace then
      if depth = 1 then some ([b], rest)
      else (splitBraces? (depth - 1) none rest).map fun (s, t) => (b :: s, t)
    else (splitBraces? depth none rest).map fun (s, t) => (b :: s, t)

/-- What stands before a scalar that begins in the middle of a line: nothing, or the sign of an
entry, with blanks around it. -/
def startsScalar (before : Text) : Bool :=
  let trimmed := Text.dropEndWhile Text.isSpaceOrTab before
  trimmed.isEmpty || trimmed.getLast? = some Ascii.colon || trimmed.getLast? = some Ascii.minus

/-- What stands after a scalar that ends in the middle of a line: white space, or a comment. -/
def endsScalar (after : Text) : Bool :=
  let trimmed := Text.trim after
  trimmed.isEmpty || trimmed.head? = some Ascii.hash

/-- The text in single quotes; a quote inside it is written twice. -/
def singleQuoted (s : Text) : Text :=
  [Ascii.singleQuote]
    ++ Text.replaceByte Ascii.singleQuote [Ascii.singleQuote, Ascii.singleQuote] s
    ++ [Ascii.singleQuote]

/-- Quotes the first formula of a line, if it is a whole scalar. -/
def quoteLine (line : Text) : Text :=
  match Text.cut? Formula.opening line with
  | none => line
  | some (before, rest) =>
    if startsScalar before then
      match splitBraces? 1 none rest with
      | none => line
      | some (inner, after) =>
        if endsScalar after then before ++ singleQuoted (Formula.opening ++ inner) ++ after
        else line
    else line

/-- Quotes the formulas of a source that are whole scalars. -/
def quoteFormulas (source : Text) : Text :=
  Text.join [Ascii.newline] ((Text.splitAt Ascii.newline source).map quoteLine)

end ScopedAggregation.Definition
