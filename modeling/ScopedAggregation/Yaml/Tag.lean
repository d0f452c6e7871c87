import ScopedAggregation.Number.Numeral
import ScopedAggregation.Time
import ScopedAggregation.Yaml.Token

namespace ScopedAggregation.Yaml

/-- What a scalar is taken for. -/
inductive ScalarKind where
  | null
  | bool
  | int
  | float
  | str
  | other
deriving DecidableEq, Repr, Inhabited

/-- The words that have a kind of their own. -/
def wordKind? (s : Text) : Option ScalarKind :=
  let among (words : List String) : Bool := words.any fun w => text w = s
  if among ["true", "True", "TRUE", "false", "False", "FALSE"] then some .bool
  else if among ["", "~", "null", "Null", "NULL"] then some .null
  else if among [".nan", ".NaN", ".NAN", ".inf", ".Inf", ".INF", "+.inf", "+.Inf", "+.INF",
      "-.inf", "-.Inf", "-.INF"] then some .float
  else none

/-- A date alone, a date and a time with a zone after the letter T, or a date and a time without
one after spaces. -/
def isTimestamp (s : Text) : Bool :=
  match Instant.readDate false s with
  | none => false
  | some (_, []) => true
  | some (_, b :: rest) =>
    if b = 0x54 || b = 0x74 then
      (Instant.readClock false rest).any fun (_, rest) => (Instant.readZone rest).isSome
    else if b = Ascii.space then
      (Instant.readClock false (rest.dropWhile (· = Ascii.space))).any fun (_, rest) =>
        rest.isEmpty
    else false

/-- A decimal numeral with an optional fraction and exponent. -/
def isDecimalFloat (s : Text) : Bool :=
  let s := Numeral.dropSign s
  let whole := s.takeWhile Ascii.isDigit
  let rest := s.dropWhile Ascii.isDigit
  let (fraction, rest) : Option Text × Text := match rest with
    | 0x2e :: r => (some (r.takeWhile Ascii.isDigit), r.dropWhile Ascii.isDigit)
    | r => (none, r)
  let mantissa := !whole.isEmpty || fraction.any (!·.isEmpty)
  let exponent : Bool := match rest with
    | [] => true
    | e :: r =>
      let digits := Numeral.dropSign r
      Ascii.lower e = 0x65 && !digits.isEmpty && digits.all Ascii.isDigit
  mantissa && exponent

/-- A whole number of 64 bits, signed or not. -/
def isWhole (base : Option Nat) (s : Text) : Bool :=
  (Numeral.readInt base s).isOk || (Numeral.readNat base s).isOk

/-- A whole number behind a mark of its base. -/
def isMarkedWhole (mark : String) (base : Nat) (s : Text) : Bool :=
  match Text.after? (text mark) s with
  | some digits => isWhole (some base) digits
  | none =>
    match Text.after? (text ("-" ++ mark)) s with
    | some digits => (Numeral.readInt (some base) (Ascii.minus :: digits)).isOk
    | none => false

/-- The kind of a text that starts with a digit or a sign. -/
def numeralKind (s : Text) : ScalarKind :=
  let plain := s.filter (· ≠ Ascii.underscore)
  if isTimestamp s then .other
  else if isWhole none plain then .int
  else if isDecimalFloat plain && (Numeral.readDouble plain).isOk then .float
  else if isMarkedWhole "0b" 2 plain || isMarkedWhole "0o" 8 plain then .int
  else .str

/-- The kind of a plain scalar by its text. -/
def plainKind (s : Text) : ScalarKind :=
  if s = text "<<" then .other
  else match wordKind? s with
    | some kind => kind
    | none =>
      match s with
      | [] => .null
      | b :: _ =>
        if Ascii.isDigit b || b = Ascii.plus || b = Ascii.minus then numeralKind s
        else if b = Ascii.dot && (Numeral.readDouble s).isOk then .float
        else .str

/-- What the tags of the standard types begin with. -/
def standardTagStart : Text := text "tag:yaml.org,2002:"

/-- The kind that a tag names. -/
def tagKind (tag : Text) : ScalarKind :=
  let short := match Text.after? standardTagStart tag with
    | some name => text "!!" ++ name
    | none => tag
  if short = text "!!null" then .null
  else if short = text "!!bool" then .bool
  else if short = text "!!int" then .int
  else if short = text "!!float" then .float
  else if short = text "!!str" then .str
  else .other

/-- The kind of a scalar: by its tag, or by its text if it is plain and has none. -/
def scalarKind (tag : Option Text) (style : ScalarStyle) (s : Text) : ScalarKind :=
  match tag with
  | some tag => if tag = text "!" then untagged else tagKind tag
  | none => untagged
where
  untagged : ScalarKind := if style = .plain then plainKind s else .str

end ScopedAggregation.Yaml
