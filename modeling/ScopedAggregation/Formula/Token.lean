import ScopedAggregation.Number.Numeral
import ScopedAggregation.Text.Quoted

namespace ScopedAggregation.Formula

/-- What a word means. -/
inductive Lexeme where
  | int (n : Int64)
  | float (x : Double)
  | string (s : Text)
  | trueWord
  | falseWord
  | nullWord
  | ident (name : Text)
  | variable (name : Text)
  | dot
  | comma
  | openParen
  | closeParen
  | openBracket
  | closeBracket
  | openBrace
  | closeBrace
  | colon
  | plus
  | minus
  | star
  | slash
  | percent
  | equal
  | notEqual
  | less
  | greater
  | lessEqual
  | greaterEqual
  | andWord
  | orWord
  | notWord
  | inWord
  | eof
deriving DecidableEq, Repr, Inhabited

namespace Lexeme

/-- The names of the classes of words in their standard order. -/
def classNames : List String := [
  "INT", "FLOAT", "STRING", "TRUE", "FALSE", "NULL", "IDENT", "VARIABLE", "DOT", "COMMA",
  "LPAREN", "RPAREN", "LBRACKET", "RBRACKET", "LBRACE", "RBRACE", "COLON", "PLUS", "MINUS",
  "STAR", "SLASH", "PERCENT", "EQ", "NEQ", "LT", "GT", "LTE", "GTE", "AND", "OR", "NOT", "IN",
  "EOF"]

/-- The name of the class at a position of the standard order. -/
def classNameAt (i : Int) : Text :=
  if i < 0 then text "UNKNOWN" else text ((classNames[i.toNat]?).getD "UNKNOWN")

/-- The class of a word, by its position in the standard order. -/
def classIndex : Lexeme → Nat
  | .int _ => 0
  | .float _ => 1
  | .string _ => 2
  | .trueWord => 3
  | .falseWord => 4
  | .nullWord => 5
  | .ident _ => 6
  | .variable _ => 7
  | .dot => 8
  | .comma => 9
  | .openParen => 10
  | .closeParen => 11
  | .openBracket => 12
  | .closeBracket => 13
  | .openBrace => 14
  | .closeBrace => 15
  | .colon => 16
  | .plus => 17
  | .minus => 18
  | .star => 19
  | .slash => 20
  | .percent => 21
  | .equal => 22
  | .notEqual => 23
  | .less => 24
  | .greater => 25
  | .lessEqual => 26
  | .greaterEqual => 27
  | .andWord => 28
  | .orWord => 29
  | .notWord => 30
  | .inWord => 31
  | .eof => 32

def className (l : Lexeme) : Text := classNameAt l.classIndex

end Lexeme

/-- A word with its source text and the position of its first byte. A reference keeps its name
only, without the sigil before it. -/
structure Token where
  lexeme : Lexeme
  source : Text := []
  pos : Nat
deriving DecidableEq, Repr, Inhabited

/-- Why a text cannot be cut into words. -/
inductive LexicalFault where
  | strayByte (b : UInt8) (pos : Nat)
  | noName (pos : Nat)
  | openString (pos : Nat)
  | badFloat (source : Text) (pos : Nat)
  | badInteger (source : Text) (pos : Nat)
deriving DecidableEq, Repr

namespace LexicalFault

/-- The end of a message that names a position. -/
def atPosition (pos : Nat) : Text := text " at position " ++ Text.ofNat pos

/-- A stray byte is shown as the character of the same number. -/
def message : LexicalFault → Text
  | .strayByte b pos =>
    text "unexpected character " ++ Text.quoted (Utf8.encodeChar (Char.ofNat b.toNat))
      ++ atPosition pos
  | .noName pos => text "expected name after '$'" ++ atPosition pos
  | .openString pos => text "unterminated string starting" ++ atPosition pos
  | .badFloat source pos => text "invalid float " ++ Text.quoted source ++ atPosition pos
  | .badInteger source pos => text "invalid integer " ++ Text.quoted source ++ atPosition pos

end LexicalFault

def isNameStart (b : UInt8) : Bool := Ascii.isLetter b || b = Ascii.underscore

def isNamePart (b : UInt8) : Bool := isNameStart b || Ascii.isDigit b

/-- The words that are not names. -/
def keywords : List (Text × Lexeme) := [
  (text "true", .trueWord), (text "True", .trueWord), (text "false", .falseWord),
  (text "False", .falseWord), (text "null", .nullWord), (text "and", .andWord),
  (text "or", .orWord), (text "not", .notWord), (text "in", .inWord)]

/-- The comparison signs of two bytes. -/
def pairSign? : UInt8 → UInt8 → Option Lexeme
  | 0x3d, 0x3d => some .equal
  | 0x21, 0x3d => some .notEqual
  | 0x3c, 0x3d => some .lessEqual
  | 0x3e, 0x3d => some .greaterEqual
  | _, _ => none

/-- The signs of one byte. -/
def sign? : UInt8 → Option Lexeme
  | 0x2b => some .plus
  | 0x2d => some .minus
  | 0x2a => some .star
  | 0x2f => some .slash
  | 0x25 => some .percent
  | 0x3c => some .less
  | 0x3e => some .greater
  | 0x28 => some .openParen
  | 0x29 => some .closeParen
  | 0x5b => some .openBracket
  | 0x5d => some .closeBracket
  | 0x7b => some .openBrace
  | 0x7d => some .closeBrace
  | 0x2e => some .dot
  | 0x2c => some .comma
  | 0x3a => some .colon
  | _ => none

/-- What a backslash and the byte after it stand for; an unknown pair stands for itself. -/
def escaped (b : UInt8) : Text :=
  if b = 0x6e then [Ascii.newline]
  else if b = 0x74 then [Ascii.tab]
  else if b = Ascii.backslash || b = Ascii.doubleQuote || b = Ascii.singleQuote then [b]
  else [Ascii.backslash, b]

/-- Reads a string up to its closing quote: the text it denotes and the bytes taken, the closing
quote included. -/
def readString? (quote : UInt8) : Text → Option (Text × Nat)
  | [] => none
  | 0x5c :: b :: rest =>
    (readString? quote rest).map fun (s, n) => (escaped b ++ s, n + 2)
  | b :: rest =>
    if b = quote then some ([], 1)
    else (readString? quote rest).map fun (s, n) => (b :: s, n + 1)

/-- The bytes of a number: digits, one point that a digit follows, and exponent marks with their
signs. `seenPoint` also holds after a mark; `afterMark` holds right behind one. -/
def numberSpan (seenPoint afterMark : Bool) : Text → Text
  | [] => []
  | b :: rest =>
    if Ascii.isDigit b then b :: numberSpan seenPoint false rest
    else if b = Ascii.dot && !seenPoint && (rest.head?.any Ascii.isDigit) then
      b :: numberSpan true false rest
    else if b = 0x65 || b = 0x45 then b :: numberSpan true true rest
    else if afterMark && (b = Ascii.plus || b = Ascii.minus) then
      b :: numberSpan seenPoint false rest
    else []

/-- The number that a span of bytes denotes. -/
def readNumber (pos : Nat) (span : Text) : Except LexicalFault Lexeme :=
  if span.all Ascii.isDigit then
    match Numeral.readInt (some 10) span with
    | .ok i => .ok (.int (Int64.ofInt i))
    | .error _ => .error (.badInteger span pos)
  else
    match Numeral.readDouble span with
    | .ok x => .ok (.float x)
    | .error _ => .error (.badFloat span pos)

/-- Reads a name after one dollar sign, or a variable after two. -/
def readReference (pos : Nat) (rest : Text) : Except LexicalFault (Token × Nat) :=
  let (sigils, isVariable, rest) : Nat × Bool × Text :=
    match rest with
    | 0x24 :: rest => (2, true, rest)
    | rest => (1, false, rest)
  match rest with
  | [] => .error (.noName pos)
  | b :: _ =>
    if isNameStart b then
      let name := rest.takeWhile isNamePart
      .ok (⟨if isVariable then .variable name else .ident name, name, pos⟩, sigils + name.length)
    else .error (.noName pos)

/-- Reads the word that starts with byte `b`, and how many bytes it takes. -/
def tokenAt (pos : Nat) (b : UInt8) (rest : Text) : Except LexicalFault (Token × Nat) :=
  if b = Ascii.doubleQuote || b = Ascii.singleQuote then
    match readString? b rest with
    | some (s, n) => .ok (⟨.string s, (b :: rest).take (n + 1), pos⟩, n + 1)
    | none => .error (.openString pos)
  else if Ascii.isDigit b then
    let span := numberSpan false false (b :: rest)
    (readNumber pos span).map fun l => (⟨l, span, pos⟩, span.length)
  else if b = Ascii.dollar then readReference pos rest
  else match rest.head?.bind (pairSign? b) with
    | some l => .ok (⟨l, (b :: rest).take 2, pos⟩, 2)
    | none =>
      match sign? b with
      | some l => .ok (⟨l, [b], pos⟩, 1)
      | none =>
        if isNameStart b then
          let word := (b :: rest).takeWhile isNamePart
          .ok (⟨(keywords.lookup word).getD (.ident word), word, pos⟩, word.length)
        else .error (.strayByte b pos)

/-- The words of a text whose first `skip` bytes belong to a word already read. -/
def tokensAfter : Nat → Nat → Text → Except LexicalFault (List Token)
  | _, pos, [] => .ok [⟨.eof, [], pos⟩]
  | skip + 1, pos, _ :: rest => tokensAfter skip (pos + 1) rest
  | 0, pos, b :: rest =>
    if Text.isBlankByte b then tokensAfter 0 (pos + 1) rest
    else do
      let (token, width) ← tokenAt pos b rest
      let tokens ← tokensAfter (width - 1) (pos + 1) rest
      pure (token :: tokens)

/-- The words of a text, the end of it included. -/
def tokenize (s : Text) : Except LexicalFault (List Token) := tokensAfter 0 0 s

end ScopedAggregation.Formula
