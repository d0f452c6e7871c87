import ScopedAggregation.Number.Binary
import ScopedAggregation.Text

namespace ScopedAggregation

/-- The decimal `0.d₁d₂… * 10 ^ point`; the digits do not end in zero, and zero has none. -/
structure Decimal where
  digits : Text
  point : Int
deriving DecidableEq, Repr

namespace Decimal

/-- Whether `num / den` lies strictly below, or with `closed` at most at, the bound. -/
def below (closed : Bool) (num den boundNum boundDen : Nat) : Bool :=
  if closed then num * boundDen ≤ boundNum * den else num * boundDen < boundNum * den

/-- The power of ten just above the ratio: `10 ^ (k - 1) ≤ num / den < 10 ^ k`. -/
def decade (num den : Nat) : Int :=
  let guess : Int := ((num.log2 : Int) - den.log2) * 30103 / 100000
  let reaches (k : Int) : Bool :=
    let (tenNum, tenDen) := decimalRatio 1 k
    tenNum * den ≤ num * tenDen
  match [guess - 1, guess, guess + 1, guess + 2].find? fun k => !reaches k with
  | some k => k
  | none => guess + 3

/-- The multiple of `10 ^ (k - n)` that reads back and lies nearest, if one of the two around the
number does. The interval of what reads back is given by its ends. -/
def onGrid? (closed : Bool) (low value high : Nat × Nat) (k : Int) (n : Nat) : Option Nat :=
  let unit := decimalRatio 1 (k - n)
  let d := value.1 * unit.2 / (value.2 * unit.1)
  let inside (c : Nat) : Bool :=
    below closed low.1 low.2 (c * unit.1) unit.2 && below closed (c * unit.1) unit.2 high.1 high.2
  let down := value.1 * unit.2 - d * unit.1 * value.2
  let up := (d + 1) * unit.1 * value.2 - value.1 * unit.2
  match inside d, inside (d + 1) with
  | true, true => some (if down < up || (down = up && d % 2 = 0) then d else d + 1)
  | true, false => some d
  | false, true => some (d + 1)
  | false, false => none

/-- Drops the zeros at the end. -/
def ofDigits (c : Nat) (point : Int) : Decimal :=
  ⟨Text.dropEndWhile (· = Ascii.zero) (Text.ofNat c), point⟩

/-- The shortest decimal of a finite number of the format. -/
def shortest (f : BinaryFormat) (m : Nat) (e : Int) : Decimal :=
  if m = 0 then ⟨[], 0⟩
  else
    let value := binaryRatio m e
    let high := binaryRatio (2 * m + 1) (e - 1)
    let low :=
      if m = twoPow (f.precision - 1) && f.minExponent < e then binaryRatio (4 * m - 1) (e - 2)
      else binaryRatio (2 * m - 1) (e - 1)
    let k := decade value.1 value.2
    let found := (List.range 17).findSome? fun i =>
      (onGrid? (m % 2 = 0) low value high k (i + 1)).map fun c => (c, i + 1)
    match found with
    | some (c, n) =>
      if c = tenPow n then ofDigits 1 (k + 1) else ofDigits c k
    | none => ⟨[], 0⟩

end Decimal

end ScopedAggregation
