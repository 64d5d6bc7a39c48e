import Chunkwise.Decimal.Shortest

/-!
# Decimal text

Two ways to write a double with its shortest digits: as a data format writes it, always with a point or an
exponent (`dataText`), and in plain positional form (`plainText`).
-/

namespace Chunkwise
namespace Decimal

/-- A number of zeros. -/
def zeros (n : Nat) : String := String.ofList (List.replicate n '0')

/-- The digits of a decimal as text. -/
def digitText (d : Decimal) : String := toString d.digits

/-- A decimal below one, all places written. -/
def fractionText (d : Decimal) : String :=
  let digits := d.digitText
  "0." ++ zeros (-d.exponent - digits.length).toNat ++ digits

/-- A decimal with its point among its digits. -/
def pointText (d : Decimal) : String :=
  let digits := d.digitText.toList
  let whole := digits.length - (-d.exponent).toNat
  String.ofList (digits.take whole ++ '.' :: digits.drop whole)

/-- A decimal with one digit before the point and an exponent. -/
def exponentText (d : Decimal) : String :=
  let digits := d.digitText.toList
  let exponent := d.exponent + digits.length - 1
  match digits with
  | [digit] => String.ofList [digit] ++ "e" ++ toString exponent
  | digits => String.ofList (digits.take 1 ++ '.' :: digits.drop 1) ++ "e" ++ toString exponent

/-- Data formats write places as long as the first digit is not before the sixteenth place nor behind the fifth
one after the point, and an exponent elsewhere. A whole number keeps `.0`. -/
def asData (d : Decimal) : String :=
  let top := d.exponent + d.digitText.length
  if 0 ≤ d.exponent && top ≤ 16 then d.digitText ++ zeros d.exponent.toNat ++ ".0"
  else if 0 < top && top ≤ 16 then d.pointText
  else if -5 < top && top ≤ 0 then d.fractionText
  else d.exponentText

/-- Plain text writes every place and no point behind a whole number. -/
def asPlain (d : Decimal) : String :=
  let top := d.exponent + d.digitText.length
  if 0 ≤ d.exponent then d.digitText ++ zeros d.exponent.toNat
  else if 0 < top then d.pointText
  else d.fractionText

/-- The sign of a double, that of zero included. -/
def signText (x : Float) : String := if Nat.pow 2 63 ≤ x.toBits.toNat then "-" else ""

/-- A finite double as data formats write it. -/
def dataText (x : Float) : String :=
  let b := Binary.ofFloat x
  signText x ++ if b.mantissa = 0 then "0.0" else (shortest b).asData

/-- A double in plain positional form. -/
def plainText (x : Float) : String :=
  if x.isNaN then "NaN"
  else if x.isInf then signText x ++ "inf"
  else
    let b := Binary.ofFloat x
    signText x ++ if b.mantissa = 0 then "0" else (shortest b).asPlain

end Decimal
end Chunkwise
