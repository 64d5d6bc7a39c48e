import Chunkwise.Decimal.Shortest

/-!
# Reading decimals

The double nearest to a decimal. An exponent beyond all doubles is not worked out: a decimal of more than 400 places
before the point is infinite, and one with more than 400 zeros behind the point is zero.
-/

namespace Chunkwise
namespace Decimal

/-- The number of decimal digits. -/
def natOfDigits (digits : List Char) : Nat := digits.foldl (fun n c => n * 10 + (c.toNat - 48)) 0

/-- The double nearest to `digits · 10^exponent`. -/
def nearest (digits : Nat) (exponent : Int) : Float :=
  let top := exponent + digitCount digits
  if digits = 0 || top < -400 then 0.0
  else if 400 < top then 1.0 / 0.0
  else if exponent < 0 then Float.ofScientific digits true exponent.natAbs
  else Float.ofScientific digits false exponent.natAbs

/-- The double nearest to a decimal written with a sign, digits before and behind the point, and an exponent. -/
def ofParts (negative : Bool) (whole fraction : List Char) (exponent : Int) : Float :=
  let x := nearest (natOfDigits (whole ++ fraction)) (exponent - fraction.length)
  if negative then -x else x

end Decimal
end Chunkwise
