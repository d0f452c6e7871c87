namespace ScopedAggregation

def twoPow (n : Nat) : Nat := Nat.pow 2 n

def tenPow (n : Nat) : Nat := Nat.pow 10 n

/-- The first natural number that is too large for 64 bits with a sign. -/
abbrev int64Bound : Nat := 0x8000000000000000

/-- The integers of 64 bits. -/
def isInt64 (i : Int) : Bool := -int64Bound ≤ i && i < int64Bound

/-- The finite numbers of a format are `m * 2 ^ e` with `m < 2 ^ precision` and bounds for `e`. -/
structure BinaryFormat where
  precision : Nat
  minExponent : Int
  maxExponent : Int
deriving DecidableEq, Repr

namespace BinaryFormat

def double : BinaryFormat := ⟨53, -1074, 971⟩

def single : BinaryFormat := ⟨24, -149, 104⟩

end BinaryFormat

/-- The absolute value of a number that is not a NaN. -/
inductive Magnitude where
  | finite (significand : Nat) (exponent : Int)
  | infinite
deriving DecidableEq, Repr, Inhabited

/-- The ratio `m * 2 ^ e` as numerator and denominator. -/
def binaryRatio (m : Nat) (e : Int) : Nat × Nat :=
  if 0 ≤ e then (m * twoPow e.toNat, 1) else (m, twoPow (-e).toNat)

/-- The ratio `m * 10 ^ e` as numerator and denominator. -/
def decimalRatio (m : Nat) (e : Int) : Nat × Nat :=
  if 0 ≤ e then (m * tenPow e.toNat, 1) else (m, tenPow (-e).toNat)

/-- The quotient rounded to the nearest natural number, a half to the even one. -/
def divNearestEven (num den : Nat) : Nat :=
  let q := num / den
  let r := num % den
  if 2 * r < den then q
  else if den < 2 * r then q + 1
  else if q % 2 = 0 then q else q + 1

namespace BinaryFormat

/-- The number of the format nearest to `num / den`; beyond the largest one it is infinite. -/
def round (f : BinaryFormat) (num den : Nat) : Magnitude :=
  if num = 0 then .finite 0 f.minExponent
  else
    let top : Int := (num.log2 : Int) - den.log2
    let low := max (top - f.precision) f.minExponent
    let scaledBy (e : Int) : Nat × Nat :=
      if 0 ≤ e then (num, den * twoPow e.toNat) else (num * twoPow (-e).toNat, den)
    let wide := scaledBy low
    let e := if twoPow f.precision ≤ wide.1 / wide.2 then low + 1 else low
    let ratio := scaledBy e
    let m := divNearestEven ratio.1 ratio.2
    let rounded := if m = twoPow f.precision then (twoPow (f.precision - 1), e + 1) else (m, e)
    if f.maxExponent < rounded.2 then .infinite else .finite rounded.1 rounded.2

/-- The number of the format nearest to `m * 2 ^ e`. -/
def ofBinary (f : BinaryFormat) (m : Nat) (e : Int) : Magnitude :=
  if m = 0 then .finite 0 f.minExponent
  else if 5000 < (m.log2 : Int) + e then .infinite
  else if (m.log2 : Int) + e < -5000 then .finite 0 f.minExponent
  else
    let (num, den) := binaryRatio m e
    f.round num den

/-- The number of the format nearest to `m * 10 ^ e`. -/
def ofDecimal (f : BinaryFormat) (m : Nat) (e : Int) : Magnitude :=
  let decade : Int := (m.log2 : Int) * 30103 / 100000 + e
  if m = 0 then .finite 0 f.minExponent
  else if 400 < decade then .infinite
  else if decade < -400 then .finite 0 f.minExponent
  else
    let (num, den) := decimalRatio m e
    f.round num den

end BinaryFormat

/-- A double is its 64 bits: sign, eleven of exponent, fifty-two of fraction. -/
structure Double where
  bits : UInt64
deriving DecidableEq, Repr, Inhabited

namespace Double

/-- The first significand with all its digits; a smaller one belongs to a number near zero. -/
abbrev normalBound : Nat := 0x10000000000000

/-- What the bits of a double stand for. -/
inductive Reading where
  | nan
  | number (negative : Bool) (magnitude : Magnitude)
deriving DecidableEq, Repr

def reading (x : Double) : Reading :=
  let n : Nat := x.bits.toNat
  let negative : Bool := int64Bound ≤ n
  let exponent : Nat := n / normalBound % 2048
  let fraction : Nat := n % normalBound
  if exponent = 2047 then
    if fraction = 0 then .number negative .infinite else .nan
  else if exponent = 0 then .number negative (.finite fraction (-1074))
  else .number negative (.finite (normalBound + fraction) ((exponent : Int) - 1075))

/-- The double with the given sign and magnitude, where the magnitude is one of the format's. -/
def ofMagnitude (negative : Bool) (x : Magnitude) : Double :=
  let sign := if negative then int64Bound else 0
  match x with
  | .infinite => ⟨UInt64.ofNat (sign + 2047 * normalBound)⟩
  | .finite m e =>
    if m < normalBound then ⟨UInt64.ofNat (sign + m)⟩
    else ⟨UInt64.ofNat (sign + (e + 1075).toNat * normalBound + (m - normalBound))⟩

def nan : Double := ⟨0x7ff8000000000001⟩

/-- Changes the sign. -/
def neg (x : Double) : Double := ⟨x.bits ^^^ 0x8000000000000000⟩

/-- Neither infinite nor a NaN. -/
def isFinite (x : Double) : Bool :=
  match x.reading with
  | .number _ (.finite _ _) => true
  | _ => false

/-- Equality of numbers: a NaN equals nothing and the two zeros are equal. -/
def numEq (x y : Double) : Bool :=
  match x.reading, y.reading with
  | .nan, _ => false
  | _, .nan => false
  | .number _ (.finite 0 _), .number _ (.finite 0 _) => true
  | a, b => a = b

/-- The whole number that a double denotes, if it denotes one. -/
def whole? (x : Double) : Option Int :=
  match x.reading with
  | .number negative (.finite m e) =>
    let (num, den) := binaryRatio m e
    if num % den = 0 then
      some (if negative then -((num / den : Nat) : Int) else ((num / den : Nat) : Int))
    else none
  | _ => none

/-- What the whole number `2 ^ 63` is converted to. No integer of 64 bits is that number, so the
conversion leaves the result to the processor; here it is the least integer, as on amd64. -/
def pastInt64 : Int64 := Int64.minValue

/-- The conversion of a whole double up to `2 ^ 63`. The greatest integer of 64 bits is no double and
stands for `2 ^ 63` where it is compared with one, so that number is still within the bounds. -/
def toInt64? (x : Double) : Option Int64 :=
  match x.whole? with
  | some i =>
    if isInt64 i then some (Int64.ofInt i)
    else if i = int64Bound then some pastInt64
    else none
  | none => none

end Double

end ScopedAggregation
