import SchemaRecords.Json.Value

/-!
# JSON text of a document

Documents are written without any blank.  In strings the quote, the backslash and
the control characters are escaped, the common ones by a letter and the others by
four hexadecimal digits; every other character stands for itself.

A double is written with the fewest digits that read back, the even neighbour
deciding a tie.  It is written positionally, and then always with a fraction, while
the exponent of its first digit is between minus five and fifteen; otherwise it has
an exponent with a sign.
-/

namespace SchemaRecords.Json

open SchemaRecords.Number

/-- The hexadecimal digit of a value below sixteen. -/
def hexDigit (value : Nat) : Char :=
  if value < 10 then Char.ofNat (48 + value) else Char.ofNat (87 + value)

/-- A character as it is written inside a string. -/
def escape (c : Char) : List Char :=
  if c = '"' then ['\\', '"']
  else if c = '\\' then ['\\', '\\']
  else if c.toNat = 8 then ['\\', 'b']
  else if c.toNat = 9 then ['\\', 't']
  else if c.toNat = 10 then ['\\', 'n']
  else if c.toNat = 12 then ['\\', 'f']
  else if c.toNat = 13 then ['\\', 'r']
  else if c.toNat < 32 then
    ['\\', 'u', '0', '0', hexDigit (c.toNat / 16), hexDigit (c.toNat % 16)]
  else [c]

/-- A text as a JSON string. -/
def renderString (text : String) : List Char :=
  '"' :: text.toList.flatMap escape ++ ['"']

/-- A decimal with the exponent of its first digit written out. -/
def scientific (d : Decimal) : List Char :=
  let exponent := d.leading
  let sign := if exponent < 0 then '-' else '+'
  let mantissa := match Numeral.ofNat d.digits with
    | first :: second :: rest => first :: '.' :: second :: rest
    | digits => digits
  mantissa ++ 'e' :: sign :: Numeral.ofNat exponent.natAbs

/-- The text of a finite magnitude. -/
def renderDecimal (d : Decimal) : List Char :=
  if -5 ≤ d.leading ∧ d.leading ≤ 15 then
    let (whole, fraction) := d.positional
    whole ++ '.' :: (if fraction = [] then ['0'] else fraction)
  else scientific d

/-- The text of a number.  Doubles that are not finite have no number in JSON. -/
def Number.render : Number → List Char
  | .integer value => Numeral.ofInt value
  | .real value =>
    if value.isFinite then
      let magnitude := renderDecimal (value.shortest .toEven)
      if value.isNegative then '-' :: magnitude else magnitude
    else "null".toList

namespace Value

mutual

/-- The text of a document. -/
def render : Value → List Char
  | .null => "null".toList
  | .bool true => "true".toList
  | .bool false => "false".toList
  | .number value => value.render
  | .string text => renderString text
  | .array items => '[' :: renderItems items ++ [']']
  | .object members => '{' :: renderMembers members ++ ['}']

/-- The items of an array, separated by commas. -/
def renderItems : List Value → List Char
  | [] => []
  | [item] => render item
  | item :: next :: rest => render item ++ ',' :: renderItems (next :: rest)

/-- The members of an object, separated by commas. -/
def renderMembers : List (String × Value) → List Char
  | [] => []
  | [(key, value)] => renderString key ++ ':' :: render value
  | (key, value) :: next :: rest =>
    renderString key ++ ':' :: render value ++ ',' :: renderMembers (next :: rest)

end

/-- The text of a document as a string. -/
def text (value : Value) : String := String.ofList value.render

end Value
end SchemaRecords.Json
