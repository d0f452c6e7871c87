import ScopedAggregation.Log
import ScopedAggregation.Text.Blank
import ScopedAggregation.Text.Quoted
import ScopedAggregation.Value.Json

namespace ScopedAggregation

inductive LogFormat where
  | text
  | json
deriving DecidableEq, Repr

/-- Where a logger starts and how it writes. -/
structure Logger where
  level : LogLevel
  format : LogFormat
deriving DecidableEq, Repr

namespace LogFormat

/-- The units that a value without quotes may not hold. -/
def needsQuotes : Rune → Bool
  | .stray _ => true
  | .char c =>
    let n := c.toNat
    if n < 0x80 then n < 0x21 || n = 0x22 || n = 0x3d
    else n = 0xfffd || Text.isBlankPoint n || !Text.isPrintable n

/-- A text of the text form. -/
def bare (s : Text) : Text :=
  if s.isEmpty || (Utf8.decode s).any needsQuotes then Text.quoted s else s

def bareValue : LogValue → Text
  | .text s => bare s
  | v => v.display

/-- One unit of a string of the JSON form. Unlike in documents the signs of markup stay as they are, and
fewer controls have an escape of one letter. -/
def jsonRune : Rune → Text
  | .stray b => Json.stringRune (.stray b)
  | .char c =>
    let n := c.toNat
    if n = 0x08 || n = 0x0c then ScopedAggregation.text "\\u" ++ Text.hex 4 n
    else if n = 0x3c || n = 0x3e || n = 0x26 then Utf8.encodeChar c
    else Json.stringRune (.char c)

def jsonText (s : Text) : Text :=
  [Ascii.doubleQuote] ++ (Utf8.decode s).flatMap jsonRune ++ [Ascii.doubleQuote]

def jsonValue : LogValue → Text
  | .text s => jsonText s
  | v => v.display

/-- The pairs of a line in order. -/
def pairs (l : LogLine) : List (Text × LogValue) :=
  (ScopedAggregation.text "level", .text l.level.name)
    :: (ScopedAggregation.text "msg", .text l.message) :: l.attributes

/-- A line without its end. -/
def write : LogFormat → LogLine → Text
  | .text, l =>
    Text.join [Ascii.space]
      ((pairs l).map fun (k, v) => bare k ++ [Ascii.equals] ++ bareValue v)
  | .json, l =>
    [Ascii.openBrace]
      ++ Text.join [Ascii.comma]
        ((pairs l).map fun (k, v) => jsonText k ++ [Ascii.colon] ++ jsonValue v)
      ++ [Ascii.closeBrace]

end LogFormat

/-- What a logger writes for a line. -/
def Logger.write (g : Logger) (l : LogLine) : Text :=
  if l.level.rank < g.level.rank then [] else g.format.write l ++ [Ascii.newline]

end ScopedAggregation
