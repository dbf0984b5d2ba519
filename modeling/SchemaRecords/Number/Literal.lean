import SchemaRecords.Number.Shortest

/-!
# Decimal literals

A literal has an optional sign, digits with an optional point, and an optional
exponent.  At least one digit stands before the exponent; the point may come first
or last.  The words `inf`, `infinity` and `nan` are read in any case.

A literal is rounded to a format once, from its exact value.  Powers of ten that lie
beyond everything the format can tell apart are settled by the place of the first
digit, so an exponent of any length costs nothing.
-/

namespace SchemaRecords.Number

/-- A literal as written: its digits, and the power of ten that they are multiples
of. -/
inductive Literal where
  | number (negative : Bool) (value : Decimal)
  | infinity (negative : Bool)
  | notANumber (negative : Bool)
  deriving DecidableEq, Repr

namespace Literal

/-- The number that a row of digits denotes. -/
def digitsValue (digits : List Char) : Nat :=
  digits.foldl (fun value c => value * 10 + (c.toNat - 48)) 0

/-- Split a text after its leading decimal digits. -/
def spanDigits (text : List Char) : List Char × List Char :=
  (text.takeWhile fun c => (Numeral.digitValue? c).isSome,
    text.dropWhile fun c => (Numeral.digitValue? c).isSome)

/-- Read the exponent part of a literal, which may be missing. -/
def readExponent : List Char → Option Int
  | [] => some 0
  | mark :: rest =>
    if mark = 'e' ∨ mark = 'E' then
      let (negative, digits) := match rest with
        | '-' :: digits => (true, digits)
        | '+' :: digits => (false, digits)
        | digits => (false, digits)
      if digits ≠ [] ∧ digits.all (fun c => (Numeral.digitValue? c).isSome) then
        let value : Int := digitsValue digits
        some (if negative then -value else value)
      else none
    else none

/-- Read an unsigned number. -/
def readMagnitude (text : List Char) : Option Decimal :=
  let (whole, rest) := spanDigits text
  let (fraction, rest) := match rest with
    | '.' :: behind => spanDigits behind
    | rest => ([], rest)
  if whole = [] ∧ fraction = [] then none
  else
    (readExponent rest).map fun exponent =>
      ⟨digitsValue (whole ++ fraction), exponent - (fraction.length : Int)⟩

/-- An ASCII letter in lower case; any other character as it is. -/
def lower (c : Char) : Char := c.toLower

/-- Read a literal; the whole text has to be one. -/
def read? (text : List Char) : Option Literal :=
  let (negative, body) := match text with
    | '-' :: body => (true, body)
    | '+' :: body => (false, body)
    | body => (false, body)
  let word := String.ofList (body.map lower)
  if word = "inf" ∨ word = "infinity" then some (.infinity negative)
  else if word = "nan" then some (.notANumber negative)
  else (readMagnitude body).map (.number negative)

end Literal

/-- The word of the magnitude nearest to a decimal.  `beyond` is a power of ten past
which the format has no finite magnitude, and under whose inverse it has only
zero. -/
def Format.nearestDecimal (format : Format) (beyond : Nat) (d : Decimal) : Nat :=
  if d.digits = 0 then 0
  else if (beyond : Int) < d.leading then format.infinity
  else if d.leading < -(beyond : Int) then 0
  else format.nearest (Ratio.decimal d.digits d.exponent)

end SchemaRecords.Number
