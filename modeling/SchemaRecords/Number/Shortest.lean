import SchemaRecords.Number.Binary
import SchemaRecords.Number.Numeral

/-!
# The fewest digits that read back

The numbers that round to a positive magnitude of a format form an interval around
it, which reaches half-way to either neighbour and includes its ends exactly when
the significand is even.  A decimal reads back as the magnitude exactly when it lies
in that interval.

Among all decimals that read back, those with the fewest digits are wanted, and
among these the nearest.  For each number of digits the two decimals next to the
value on the grid of that many digits are tested; if any decimal of the grid lies in
the interval, so does one of these two.  All comparisons are between natural numbers.

Two such neighbours can be equally near.  Which of them is written is a decision of
the text format, so it is a parameter here.
-/

namespace SchemaRecords.Number

/-- The decimal `digits * 10 ^ exponent`. -/
structure Decimal where
  digits : Nat
  exponent : Int
  deriving DecidableEq, Repr

/-- Which of two equally near decimals is written. -/
inductive Tie where
  | toEven
  | upward
  deriving DecidableEq, Repr

/-- A positive magnitude `significand * 2 ^ scale` of a format.  `narrow` says that
the step to the next smaller magnitude is half the step to the next greater one,
which happens at powers of two. -/
structure Magnitude where
  significand : Nat
  scale : Int
  narrow : Bool
  deriving DecidableEq, Repr

namespace Magnitude

/-- The magnitude of a finite reading in a format. -/
def ofReading (format : Format) (significand : Nat) (scale : Int) : Magnitude :=
  ⟨significand, scale, significand = format.binade ∧ format.leastScale < scale⟩

/-- Compare `a * 10 ^ exponent` with `b * 2 ^ scale` exactly. -/
def compareScaled (a : Nat) (exponent : Int) (b : Nat) (scale : Int) : Ordering :=
  compare (a * 10 ^ exponent.toNat * 2 ^ (-scale).toNat)
    (b * 2 ^ scale.toNat * 10 ^ (-exponent).toNat)

/-- Whether a decimal lies in the interval of numbers that round to the magnitude. -/
def readsBack (x : Magnitude) (d : Decimal) : Bool :=
  let low := if x.narrow then 4 * x.significand - 1 else 4 * x.significand - 2
  let high := 4 * x.significand + 2
  let endsIncluded := x.significand % 2 == 0
  let atLow := compareScaled d.digits d.exponent low (x.scale - 2)
  let atHigh := compareScaled d.digits d.exponent high (x.scale - 2)
  (atLow == .gt || (endsIncluded && atLow == .eq)) &&
    (atHigh == .lt || (endsIncluded && atHigh == .eq))

/-- The least `k` with `x < 10 ^ k`.  It is estimated from the binary exponent and
then corrected by exact comparison. -/
def decimalScale (x : Magnitude) : Int :=
  let estimate := ((x.significand.log2 : Int) + x.scale) * 1233 / 4096
  let fits (k : Int) : Bool := compareScaled 1 k x.significand x.scale == .gt
  if fits estimate then estimate
  else if fits (estimate + 1) then estimate + 1
  else if fits (estimate + 2) then estimate + 2
  else estimate + 3

/-- The nearer of two neighbours `lower` and `lower + 1` on the grid of
`10 ^ exponent`, by comparing twice the magnitude with their sum. -/
def nearer (x : Magnitude) (tie : Tie) (lower : Nat) (exponent : Int) : Nat :=
  match compareScaled (2 * lower + 1) exponent (2 * x.significand) x.scale with
  | .gt => lower
  | .lt => lower + 1
  | .eq =>
    match tie with
    | .upward => lower + 1
    | .toEven => lower + lower % 2

/-- The decimal with `count` digits that reads back and is nearest, if any does. -/
def withDigits? (x : Magnitude) (tie : Tie) (count : Nat) : Option Decimal :=
  let exponent := x.decimalScale - (count : Int)
  let quotient := (Ratio.scaled x.significand x.scale).div (Ratio.decimal 1 exponent)
  let lower := quotient.numerator / quotient.denominator
  match x.readsBack ⟨lower, exponent⟩, x.readsBack ⟨lower + 1, exponent⟩ with
  | true, true => some ⟨x.nearer tie lower exponent, exponent⟩
  | true, false => some ⟨lower, exponent⟩
  | false, true => some ⟨lower + 1, exponent⟩
  | false, false => none

/-- The exact value as a decimal. -/
def exactly (x : Magnitude) : Decimal :=
  if 0 ≤ x.scale then ⟨x.significand * 2 ^ x.scale.toNat, 0⟩
  else ⟨x.significand * 5 ^ (-x.scale).toNat, x.scale⟩

/-- The decimal with the fewest digits that reads back.  No format of this library
needs more than seventeen digits; the exact value stands in for a wider one. -/
def shortest (x : Magnitude) (tie : Tie) : Decimal :=
  ((List.range 17).findSome? fun fewer => x.withDigits? tie (fewer + 1)).getD x.exactly

end Magnitude

namespace Decimal

/-- Move trailing zeros of the digits into the exponent, at most `limit` of them. -/
def stripZeros : (limit : Nat) → Decimal → Decimal
  | 0, d => d
  | limit + 1, d =>
    if d.digits ≠ 0 ∧ d.digits % 10 = 0 then stripZeros limit ⟨d.digits / 10, d.exponent + 1⟩
    else d

/-- The digits in front of the decimal point, at least one, and those behind it. -/
def positional (d : Decimal) : List Char × List Char :=
  let digits := Numeral.ofNat d.digits
  let zeros (count : Nat) := List.replicate count '0'
  if 0 ≤ d.exponent then (digits ++ zeros d.exponent.toNat, [])
  else
    let places := (-d.exponent).toNat
    if places < digits.length then
      (digits.take (digits.length - places), digits.drop (digits.length - places))
    else (['0'], zeros (places - digits.length) ++ digits)

/-- The exponent of the first digit. -/
def leading (d : Decimal) : Int :=
  d.exponent + ((Numeral.ofNat d.digits).length : Int) - 1

end Decimal
end SchemaRecords.Number
