/-!
# Shortest decimals

The fewest decimal digits that read back as a binary number. A finite double is `m · 2^q`; the reals that round to
it form an interval around it, which holds its ends when `m` is even. `shortest` takes the coarsest decimal grid
that has a point in the interval, and there the point nearest to the number (of two equally near, the even one).
All arithmetic is exact.

* `onGrid?_mem`: a digit string found on a grid lies in the interval.
-/

namespace Chunkwise

/-- The number `digits · 10^exponent`. -/
structure Decimal where
  digits : Nat
  exponent : Int
deriving DecidableEq, Repr

namespace Decimal

/-- A finite double `m · 2^q` apart from its sign. -/
structure Binary where
  mantissa : Nat
  exponent : Int
  /-- Whether the next smaller double is only half as far away as the next greater one. -/
  atPowerOfTwo : Bool

/-- The parts of a finite double. -/
def Binary.ofFloat (x : Float) : Binary :=
  let bits := x.toBits.toNat
  let biased : Nat := bits / Nat.pow 2 52 % Nat.pow 2 11
  let fraction : Nat := bits % Nat.pow 2 52
  if biased = 0 then ⟨fraction, -1074, false⟩
  else ⟨Nat.pow 2 52 + fraction, (biased : Int) - 1075, fraction = 0 && 1 < biased⟩

/-- An interval of fractions with one denominator, around a value. -/
structure Interval where
  low : Nat
  value : Nat
  high : Nat
  denominator : Nat
  closed : Bool

/-- The reals that round to a double. -/
def Binary.interval (b : Binary) : Interval :=
  let scale := Nat.pow 2 (b.exponent - 2).toNat
  { low := (4 * b.mantissa - if b.atPowerOfTwo then 1 else 2) * scale
    value := 4 * b.mantissa * scale
    high := (4 * b.mantissa + 2) * scale
    denominator := Nat.pow 2 (2 - b.exponent).toNat
    closed := b.mantissa % 2 = 0 }

/-- Whether `digits · 10^exponent` lies in an interval. -/
def Interval.holds (i : Interval) (d : Decimal) : Bool :=
  let point := d.digits * Nat.pow 10 d.exponent.toNat * i.denominator
  let unit := Nat.pow 10 (-d.exponent).toNat
  if i.closed then i.low * unit ≤ point && point ≤ i.high * unit else i.low * unit < point && point < i.high * unit

/-- The point of the grid of `10^exponent` in an interval that is nearest to its value. -/
def Interval.onGrid? (i : Interval) (exponent : Int) : Option Decimal :=
  let numerator := i.value * Nat.pow 10 (-exponent).toNat
  let denominator := i.denominator * Nat.pow 10 exponent.toNat
  let below := numerator / denominator
  let rest := numerator % denominator
  let down : Decimal := ⟨below, exponent⟩
  let up : Decimal := ⟨below + 1, exponent⟩
  let upNearer := denominator < 2 * rest || (2 * rest = denominator && below % 2 = 1)
  match i.holds down && 0 < below, i.holds up with
  | true, true => some (if upNearer then up else down)
  | true, false => some down
  | false, true => some up
  | false, false => none

/-- The point on the first of `n` ever finer grids that has one in the interval. -/
def Interval.search (i : Interval) (exponent : Int) : Nat → Decimal
  | 0 => ⟨0, exponent⟩
  | n + 1 => match i.onGrid? exponent with
    | some d => d
    | none => i.search (exponent - 1) n

/-- Number of decimal digits of a number. -/
def digitCount (n : Nat) : Nat := (Nat.toDigits 10 n).length

/-- The fewest digits that read back as a double that is not zero. -/
def shortest (b : Binary) : Decimal :=
  let i := b.interval
  let magnitude : Int :=
    if i.denominator ≤ i.value then digitCount (i.value / i.denominator)
    else 1 - (digitCount (i.denominator / i.value) : Int)
  i.search (magnitude + 1) 24

/-- A decimal found on a grid lies in the interval. -/
theorem onGrid?_mem {i : Interval} {exponent : Int} {d : Decimal} (h : i.onGrid? exponent = some d) : i.holds d := by
  simp only [Interval.onGrid?] at h
  split at h
  · rename_i h1 h2
    split at h <;> cases h
    · exact h2
    · exact (Bool.and_eq_true _ _ ▸ h1).1
  · rename_i h1 _
    cases h
    exact (Bool.and_eq_true _ _ ▸ h1).1
  · rename_i _ h2
    cases h
    exact h2
  · cases h

end Decimal
end Chunkwise
