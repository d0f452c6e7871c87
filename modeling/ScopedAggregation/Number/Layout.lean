import ScopedAggregation.Number.Shortest

namespace ScopedAggregation

/-- Decimals with an exponent from `least` up to `most` are written in full. -/
structure NumberLayout where
  least : Int
  most : Int
  exponentWidth : Nat
deriving Repr

namespace NumberLayout

/-- Numbers inside documents: in full from a millionth to below `10 ^ 21`. -/
def document : NumberLayout := ⟨-6, 20, 1⟩

/-- Numbers inside messages: in full from a ten-thousandth to below a million. -/
def message : NumberLayout := ⟨-4, 5, 2⟩

end NumberLayout

namespace Decimal

/-- Digits with a decimal point where it belongs. -/
def plain (d : Decimal) : Text :=
  if d.point ≤ 0 then
    text "0." ++ List.replicate (-d.point).toNat Ascii.zero ++ d.digits
  else
    let whole := d.point.toNat
    if d.digits.length ≤ whole then
      d.digits ++ List.replicate (whole - d.digits.length) Ascii.zero
    else d.digits.take whole ++ [Ascii.dot] ++ d.digits.drop whole

/-- One digit before the point and a power of ten after the digits. -/
def scientific (width : Nat) (d : Decimal) : Text :=
  let exponent := d.point - 1
  let mark := if exponent < 0 then text "e-" else text "e+"
  let size := Text.ofNat exponent.natAbs
  let padded := List.replicate (width - size.length) Ascii.zero ++ size
  match d.digits with
  | [] => []
  | [first] => [first] ++ mark ++ padded
  | first :: rest => [first, Ascii.dot] ++ rest ++ mark ++ padded

def write (layout : NumberLayout) (d : Decimal) : Text :=
  if d.digits = [] then [Ascii.zero]
  else if layout.least ≤ d.point - 1 && d.point - 1 ≤ layout.most then d.plain
  else d.scientific layout.exponentWidth

end Decimal

/-- A signed number of the format in the layout. -/
def NumberLayout.magnitude (layout : NumberLayout) (f : BinaryFormat) (negative : Bool) :
    Magnitude → Text
  | .infinite => if negative then text "-Inf" else text "+Inf"
  | .finite m e =>
    (if negative then [Ascii.minus] else []) ++ (Decimal.shortest f m e).write layout

/-- A double in the layout. -/
def Double.write (layout : NumberLayout) (x : Double) : Text :=
  match x.reading with
  | .nan => text "NaN"
  | .number negative size => layout.magnitude .double negative size

end ScopedAggregation
