import ScopedAggregation.Number.Binary
import ScopedAggregation.Text.Blank

namespace ScopedAggregation

/-- Why a text is no number of the wanted kind. -/
inductive NumeralError where
  | malformed
  | outOfRange
deriving DecidableEq, Repr

namespace NumeralError

def message : NumeralError → Text
  | .malformed => text "invalid syntax"
  | .outOfRange => text "value out of range"

end NumeralError

namespace Numeral

/-- The value of a digit of a base up to thirty-six. -/
def digitValue? (b : UInt8) : Option Nat :=
  if Ascii.isDigit b then some (b.toNat - 0x30)
  else if Ascii.isLetter b then some ((Ascii.lower b).toNat - 0x61 + 10)
  else none

/-- What the previous character was when looking at an underscore. -/
inductive Before where
  | start
  | digit
  | underscore
  | other
deriving DecidableEq

/-- Every underscore stands between two digits, where a base mark counts as a digit. -/
def underscoresFrom (hex : Bool) : Before → Text → Bool
  | before, [] => before ≠ .underscore
  | before, b :: s =>
    if Ascii.isDigit b || (hex && (Ascii.hexValue? b).isSome) then underscoresFrom hex .digit s
    else if b = Ascii.underscore then
      if before = .digit then underscoresFrom hex .underscore s else false
    else if before = .underscore then false
    else underscoresFrom hex .other s

/-- Drops a leading plus or minus sign. -/
def dropSign : Text → Text
  | 0x2b :: s => s
  | 0x2d :: s => s
  | s => s

/-- The letter after a leading zero that names a base. -/
def baseMark? : Text → Option (UInt8 × Text)
  | 0x30 :: b :: s => some (Ascii.lower b, s)
  | _ => none

def underscoresFit (s : Text) : Bool :=
  let s := dropSign s
  match baseMark? s with
  | some (0x62, rest) => underscoresFrom false .digit rest
  | some (0x6f, rest) => underscoresFrom false .digit rest
  | some (0x78, rest) => underscoresFrom true .digit rest
  | _ => underscoresFrom false .start s

/-- Adds up digits, refusing at the first one that is none or that passes the limit. -/
def accumulate (base limit : Nat) (underscores : Bool) : Nat → Text → Except NumeralError Nat
  | n, [] => .ok n
  | n, b :: s =>
    if underscores && b = Ascii.underscore then accumulate base limit underscores n s
    else match digitValue? b with
      | none => .error .malformed
      | some d =>
        if base ≤ d then .error .malformed
        else if limit < n * base + d then .error .outOfRange
        else accumulate base limit underscores (n * base + d) s

/-- The base that the first characters of an unsigned numeral name, and its digits. -/
def detectBase (s : Text) : Nat × Text :=
  match s with
  | 0x30 :: b :: c :: rest =>
    if Ascii.lower b = 0x62 then (2, c :: rest)
    else if Ascii.lower b = 0x6f then (8, c :: rest)
    else if Ascii.lower b = 0x78 then (16, c :: rest)
    else (8, b :: c :: rest)
  | 0x30 :: rest => (8, rest)
  | s => (10, s)

/-- Reads an unsigned numeral of 64 bits; without a base, its first characters name it. -/
def readNat (base : Option Nat) (s : Text) : Except NumeralError Nat := do
  if s = [] then .error .malformed
  else match base with
    | some b => accumulate b 0xffffffffffffffff false 0 s
    | none =>
      let (b, digits) := detectBase s
      let n ← accumulate b 0xffffffffffffffff true 0 digits
      if s.any (· = Ascii.underscore) && !underscoresFit s then .error .malformed
      else pure n

/-- Reads a signed numeral of 64 bits. -/
def readInt (base : Option Nat) (s : Text) : Except NumeralError Int := do
  let negative := s.head? = some Ascii.minus
  let n ← readNat base (dropSign s)
  if negative then
    if int64Bound < n then .error .outOfRange else pure (-(n : Int))
  else if int64Bound ≤ n then .error .outOfRange
  else pure n

/-- Infinity and not-a-number, spelled as whole texts. -/
def special? (s : Text) : Option Double :=
  let unsigned := dropSign s
  let signed := unsigned.length < s.length
  let negative := s.head? = some Ascii.minus
  let word := Text.lower unsigned
  if word = text "inf" || word = text "infinity" then some (Double.ofMagnitude negative .infinite)
  else if word = text "nan" && !signed then some Double.nan
  else none

/-- The digits of a significand: their value, how many stand after the point, whether there were
any, and what follows them. -/
structure Significand where
  value : Nat := 0
  fraction : Nat := 0
  seenPoint : Bool := false
  seenDigit : Bool := false

/-- Reads digits with at most one point among them. -/
def readSignificand (base : Nat) : Significand → Text → Significand × Text
  | acc, [] => (acc, [])
  | acc, b :: s =>
    if b = Ascii.underscore then readSignificand base acc s
    else if b = Ascii.dot then
      if acc.seenPoint then (acc, b :: s)
      else readSignificand base { acc with seenPoint := true } s
    else match digitValue? b with
      | none => (acc, b :: s)
      | some d =>
        if base ≤ d then (acc, b :: s)
        else
          readSignificand base
            { acc with
              value := acc.value * base + d
              fraction := if acc.seenPoint then acc.fraction + 1 else acc.fraction
              seenDigit := true } s

/-- Adds up exponent digits; beyond ten thousand further digits change nothing. -/
def exponentDigits : Nat → Text → Nat × Text
  | n, [] => (n, [])
  | n, b :: s =>
    if Ascii.isDigit b then
      exponentDigits (if n < 10000 then n * 10 + Ascii.digitValue b else n) s
    else if b = Ascii.underscore then exponentDigits n s
    else (n, b :: s)

/-- The exponent after its mark; it has at least one digit. -/
def readExponent? (s : Text) : Option (Int × Text) :=
  let negative := s.head? = some Ascii.minus
  let digits := dropSign s
  match digits with
  | [] => none
  | b :: _ =>
    if Ascii.isDigit b then
      let (n, rest) := exponentDigits 0 digits
      some (if negative then -(n : Int) else n, rest)
    else none

/-- The hexadecimal digits after `0x`, if that is how the unsigned numeral starts. -/
def hexDigits? : Text → Option Text
  | 0x30 :: x :: c :: rest => if Ascii.lower x = 0x78 then some (c :: rest) else none
  | _ => none

/-- Reads an unsigned floating-point numeral that is the whole text. -/
def readMagnitude (f : BinaryFormat) (s : Text) : Except NumeralError Magnitude :=
  let (base, mark, digits) : Nat × UInt8 × Text :=
    match hexDigits? s with
    | some digits => (16, 0x70, digits)
    | none => (10, 0x65, s)
  let (sig, rest) := readSignificand base {} digits
  let exponent : Option (Option Int) :=
    match rest with
    | [] => some none
    | b :: rest =>
      if Ascii.lower b = mark then
        match readExponent? rest with
        | some (e, []) => some (some e)
        | _ => none
      else none
  if !sig.seenDigit then .error .malformed
  else match exponent with
    | none => .error .malformed
    | some none =>
      if base = 16 then .error .malformed
      else .ok (f.ofDecimal sig.value (-(sig.fraction : Int)))
    | some (some e) =>
      if base = 16 then .ok (f.ofBinary sig.value (e - 4 * (sig.fraction : Int)))
      else .ok (f.ofDecimal sig.value (e - sig.fraction))

/-- Reads a signed magnitude; numbers beyond the largest one are out of range. -/
def readSigned (f : BinaryFormat) (s : Text) : Except NumeralError (Bool × Magnitude) := do
  if s.any (· = Ascii.underscore) && !underscoresFit s then .error .malformed
  else
    let x ← readMagnitude f (dropSign s)
    if x = .infinite then .error .outOfRange
    else pure (s.head? = some Ascii.minus, x)

/-- Reads a double. -/
def readDouble (s : Text) : Except NumeralError Double :=
  match special? s with
  | some x => .ok x
  | none => (readSigned .double s).map fun (negative, x) => Double.ofMagnitude negative x

/-- Drops leading white space; a line break among it ends the attempt. -/
def skipBlanks? (s : Text) : Option Text :=
  let rest := (Utf8.decode s).dropWhile fun u =>
    match u with
    | .char c => Text.isBlankPoint c.toNat && c ≠ '\n'
    | .stray _ => false
  match rest with
  | .char '\n' :: _ => none
  | rest => some (rest.flatMap Utf8.encodeRune)

/-- The whole number at the beginning of a text: a sign, if any, and decimal digits. -/
def scanInt? (s : Text) : Option Int64 := do
  let s ← skipBlanks? s
  let negative := s.head? = some Ascii.minus
  let digits := (dropSign s).takeWhile Ascii.isDigit
  if digits = [] then none
  else
    let n := Text.digitsValue digits
    let i : Int := if negative then -(n : Int) else n
    if isInt64 i then some (Int64.ofInt i) else none

/-- Takes one byte of a set, if the text begins with one. -/
def accept (set : Text) : Text × Text → Text × Text
  | (taken, b :: s) => if set.any (· = b) then (taken ++ [b], s) else (taken, b :: s)
  | (taken, []) => (taken, [])

/-- Takes as many bytes of a set as there are. -/
def acceptAll (set : Text) : Text × Text → Text × Text
  | (taken, s) =>
    (taken ++ s.takeWhile (fun b => set.any (· = b)), s.dropWhile (fun b => set.any (· = b)))

/-- Whether the last step took a byte. -/
def took (before after : Text × Text) : Bool := before.1.length < after.1.length

/-- Takes a byte of each set in turn, stopping at the first that does not fit. -/
def acceptWord : List Text → Text × Text → Bool × (Text × Text)
  | [], st => (true, st)
  | set :: sets, st =>
    let st' := accept set st
    if took st st' then acceptWord sets st' else (false, st')

/-- The beginning of a text that looks like a floating-point numeral. -/
def doubleToken (s : Text) : Text :=
  let (isNan, st) := acceptWord [text "nN", text "aA", text "nN"] ([], s)
  if isNan then st.1
  else
    let (isInf, st) := acceptWord [text "iI", text "nN", text "fF"] (accept (text "+-") st)
    if isInf then st.1
    else
      let (isHex, st) := acceptWord [text "0", text "xX"] st
      let digits := if isHex then text "0123456789aAbBcCdDeEfF_" else text "0123456789_"
      let mark := if isHex then text "pP" else text "eEpP"
      let st := acceptAll digits st
      let dotted := accept (text ".") st
      let st := if took st dotted then acceptAll digits dotted else dotted
      let marked := accept mark st
      if took st marked then (acceptAll (text "0123456789_") (accept (text "+-") marked)).1
      else marked.1

/-- Reads a decimal significand with a binary exponent after `p`. -/
def readScaled? (significand exponent : Text) : Option Double := do
  let x ← (readDouble significand).toOption
  let e ← (readInt (some 10) exponent).toOption
  match x.reading with
  | .number negative (.finite m k) =>
    some (Double.ofMagnitude negative (BinaryFormat.double.ofBinary m (k + e)))
  | _ => some x

/-- The floating-point number at the beginning of a text. -/
def scanDouble? (s : Text) : Option Double := do
  let s ← skipBlanks? s
  if s = [] then none
  else
    let token := doubleToken s
    match Text.cut? (text "p") token with
    | some (significand, exponent) =>
      if token.any (· = 0x78) || token.any (· = 0x58) then (readDouble token).toOption
      else readScaled? significand exponent
    | none => (readDouble token).toOption

end Numeral

end ScopedAggregation
