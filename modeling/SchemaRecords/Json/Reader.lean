import SchemaRecords.Json.Tree
import SchemaRecords.Json.Value

/-!
# Documents from JSON text

A text stands for a document when it nests at most 127 arrays and objects, its code
unit escapes pair up to characters, and its numbers are finite.

Integers between the least signed and the greatest unsigned 64-bit word are kept
exactly; every other number becomes a double.  The double is not always the nearest
one: digits are gathered into a 64-bit significand, digits past its range only move
the exponent or are dropped, and the result is scaled by one multiplication or
division with a power of ten.
-/

namespace SchemaRecords.Json

open SchemaRecords.Number

/-- How deep the arrays and objects of a document may nest. -/
def maxNesting : Nat := 127

/-! ## Strings -/

/-- Whether a code unit is the first of a pair. -/
def isHighUnit (code : Nat) : Bool := 0xD800 ≤ code && code < 0xDC00

/-- Whether a code unit is the second of a pair. -/
def isLowUnit (code : Nat) : Bool := 0xDC00 ≤ code && code < 0xE000

/-- The characters of a string as written, unless a code unit of a pair stands
alone. -/
def characters? : List Piece → Option (List Char)
  | [] => some []
  | .char c :: rest => (characters? rest).map (c :: ·)
  | .unit high :: .unit low :: rest =>
    if isHighUnit high then
      if isLowUnit low then
        (characters? rest).map (Char.ofNat (0x10000 + (high - 0xD800) * 0x400 + (low - 0xDC00)) :: ·)
      else none
    else if isLowUnit high then none
    else (characters? (.unit low :: rest)).map (Char.ofNat high :: ·)
  | .unit code :: rest =>
    if isHighUnit code ∨ isLowUnit code then none
    else (characters? rest).map (Char.ofNat code :: ·)

/-- The text of a string as written. -/
def string? (pieces : List Piece) : Option String :=
  (characters? pieces).map String.ofList

/-! ## Numbers -/

/-- The greatest significand that is gathered. -/
def maxSignificand : Nat := 2 ^ 64 - 1

/-- Append digits to a significand while it stays in range; the digits that are left
come back. -/
def gather : (significand : Nat) → List Char → Nat × List Char
  | significand, [] => (significand, [])
  | significand, c :: rest =>
    let next := significand * 10 + (c.toNat - 48)
    if maxSignificand < next then (significand, c :: rest) else gather next rest

/-- The double `10 ^ exponent`, for exponents up to 308. -/
def powerOfTen (exponent : Nat) : Double := Double.ofRatio false ⟨10 ^ exponent, 1⟩

/-- The quotient of two positive doubles. -/
def quotient (a b : Double) : Double := Double.ofRatio false (a.ratio.div b.ratio)

/-- Divide a double by a power of ten, 308 decimal places at a time. -/
def scaleDown (x : Double) (places : Nat) : Double :=
  if places ≤ 308 then quotient x (powerOfTen places)
  else if x = Double.zero then x
  else scaleDown (quotient x (powerOfTen 308)) (places - 308)
termination_by places

/-- The double of a significand scaled by a power of ten, unless it is infinite. -/
def scale? (significand : Nat) (exponent : Int) : Option Double :=
  let x := Double.ofInt significand
  if exponent < 0 then some (scaleDown x exponent.natAbs)
  else if exponent ≤ 308 then
    let product := Double.ofRatio false (x.ratio.mul (powerOfTen exponent.natAbs).ratio)
    if product.isFinite then some product else none
  else if x = Double.zero then some x
  else none

/-- The value of a number as written, unless it is infinite.  Minus zero is no
integer. -/
def number? (text : NumberText) : Option Number :=
  let (significand, left) := gather 0 text.whole
  if text.fraction = none ∧ text.exponent = none ∧ left = [] ∧
      (text.negative → 1 ≤ significand ∧ significand ≤ 2 ^ 63) then
    some (.integer (if text.negative then -(significand : Int) else significand))
  else
    let fraction := text.fraction.getD []
    let (significand, dropped) := gather significand fraction
    let written : Int := match text.exponent with
      | none => 0
      | some (true, digits) => -(Literal.digitsValue digits : Int)
      | some (false, digits) => Literal.digitsValue digits
    let exponent := (left.length : Int) - ((fraction.length - dropped.length : Nat) : Int) + written
    (scale? significand exponent).map fun x =>
      .real (if text.negative then x.negate else x)

/-! ## Documents -/

namespace Value

mutual

/-- The value of a tree. -/
def ofTree? : Tree → Option Value
  | .null => some .null
  | .bool value => some (.bool value)
  | .number text => (number? text).map .number
  | .string pieces => (string? pieces).map .string
  | .array items => (ofItems? items).map .array
  | .object members => (ofMembers? [] members).map .object

/-- The values of the items of an array. -/
def ofItems? : List Tree → Option (List Value)
  | [] => some []
  | item :: rest => do
    let value ← ofTree? item
    let values ← ofItems? rest
    return value :: values

/-- Add the members of an object as written, one after the other. -/
def ofMembers? (object : Members) : List (List Piece × Tree) → Option Members
  | [] => some object
  | (key, tree) :: rest => do
    let key ← string? key
    let value ← ofTree? tree
    ofMembers? (object.insert key value) rest

end

/-- The document that a JSON text stands for. -/
def read? (text : String) : Option Value := do
  let tree ← Tree.read? text.toList
  if tree.depth ≤ maxNesting then ofTree? tree else none

end Value
end SchemaRecords.Json
