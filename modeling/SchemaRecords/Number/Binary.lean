/-!
# Binary floating-point formats

A format keeps `precision` significant bits and an exponent of `exponentBits` bits.
A finite magnitude of the format is `significand * 2 ^ scale`; together with the
infinities and the values that are no number it is laid out in a word whose top bit
is the sign.

Both directions between words and exact values go through natural numbers only.
The magnitudes of a format are laid out so that the next word is the next greater
magnitude.  This makes rounding a single division: find the scale, round the
quotient to the nearest natural number, and add.  A carry out of the significand
arrives at the right place of the exponent, and beyond the greatest finite word
everything is infinite.
-/

namespace SchemaRecords.Number

/-- The two sizes of a binary floating-point format. -/
structure Format where
  precision : Nat
  exponentBits : Nat
  deriving DecidableEq, Repr

namespace Format

/-- The format of 64-bit words. -/
def double : Format := ⟨53, 11⟩

/-- The format of 32-bit words. -/
def single : Format := ⟨24, 8⟩

/-- The number of words between two powers of two. -/
def binade (format : Format) : Nat := 2 ^ (format.precision - 1)

/-- The greatest exponent field, which marks what is not finite. -/
def topField (format : Format) : Nat := 2 ^ format.exponentBits - 1

/-- The scale of the least positive magnitude. -/
def leastScale (format : Format) : Int :=
  3 - ((2 ^ (format.exponentBits - 1) : Nat) : Int) - (format.precision : Int)

/-- The word of infinity, without its sign. -/
def infinity (format : Format) : Nat := format.topField * format.binade

/-- The word of the value that is no number, without its sign. -/
def quietNaN (format : Format) : Nat := format.infinity + 2 ^ (format.precision - 2)

/-- The sign bit as a number. -/
def signBit (format : Format) : Nat := 2 ^ (format.precision - 1 + format.exponentBits)

end Format

/-- What a word of a floating-point format stands for. -/
inductive Reading where
  | finite (negative : Bool) (significand : Nat) (scale : Int)
  | infinite (negative : Bool)
  | notANumber
  deriving DecidableEq, Repr

/-- Read a word of a format. -/
def Format.read (format : Format) (word : Nat) : Reading :=
  let negative := decide (format.signBit ≤ word)
  let magnitude := word % format.signBit
  let field := magnitude / format.binade
  let fraction := magnitude % format.binade
  if field = format.topField then
    if fraction = 0 then .infinite negative else .notANumber
  else if field = 0 then .finite negative fraction format.leastScale
  else .finite negative (fraction + format.binade) (format.leastScale + (field : Int) - 1)

/-! ## Exact ratios -/

/-- A non-negative rational number.  The denominator is positive wherever one is
built. -/
structure Ratio where
  numerator : Nat
  denominator : Nat
  deriving DecidableEq, Repr

namespace Ratio

/-- `value * 2 ^ scale`. -/
def scaled (value : Nat) (scale : Int) : Ratio :=
  ⟨value * 2 ^ scale.toNat, 2 ^ (-scale).toNat⟩

/-- `value * 10 ^ exponent`. -/
def decimal (value : Nat) (exponent : Int) : Ratio :=
  ⟨value * 10 ^ exponent.toNat, 10 ^ (-exponent).toNat⟩

/-- The product. -/
def mul (a b : Ratio) : Ratio :=
  ⟨a.numerator * b.numerator, a.denominator * b.denominator⟩

/-- The quotient by a positive ratio. -/
def div (a b : Ratio) : Ratio :=
  ⟨a.numerator * b.denominator, a.denominator * b.numerator⟩

/-- The nearest natural number; halfway between two it is the even one. -/
def round (a : Ratio) : Nat :=
  let quotient := a.numerator / a.denominator
  let twice := 2 * (a.numerator % a.denominator)
  if twice < a.denominator then quotient
  else if a.denominator < twice then quotient + 1
  else quotient + quotient % 2

/-- The greatest integer `e` with `2 ^ e ≤ a`, for a positive ratio. -/
def binaryExponent (a : Ratio) : Int :=
  let estimate : Int := (a.numerator.log2 : Int) - (a.denominator.log2 : Int)
  if a.denominator * 2 ^ estimate.toNat ≤ a.numerator * 2 ^ (-estimate).toNat then estimate
  else estimate - 1

end Ratio

/-- The word of the magnitude nearest to a ratio, an even significand deciding a
tie.  Ratios past the greatest finite magnitude by half a step or more become
infinite. -/
def Format.nearest (format : Format) (a : Ratio) : Nat :=
  if a.numerator = 0 then 0
  else
    let scale := max (a.binaryExponent + 1 - (format.precision : Int)) format.leastScale
    let significand := (a.div (Ratio.scaled 1 scale)).round
    min ((scale - format.leastScale).toNat * format.binade + significand) format.infinity

end SchemaRecords.Number
