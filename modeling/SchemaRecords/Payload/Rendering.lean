import SchemaRecords.Bytes.Base64
import SchemaRecords.Json.Value
import SchemaRecords.Schema.Pool
import SchemaRecords.Text.Utf8
import SchemaRecords.Wire.Record
import SchemaRecords.Wire.ZigZag

/-!
# Wire values as JSON values

How a value of each type appears in a document.  Integers beyond 2^53 - 1 in
magnitude and doubles that are not finite appear as strings, bytes as base64 text,
and enumeration numbers as the last name declared for them, or as numbers if there
is none.

A value whose layout is not that of the type has no rendering.
-/

namespace SchemaRecords.Payload

open SchemaRecords.Number
open SchemaRecords.Schema

/-- The integer whose lowest `width` bits in two's complement are those of a word. -/
def signed (width word : Nat) : Int := Int.bmod word (2 ^ width)

/-- The greatest integer up to which doubles tell all integers apart. -/
def safeInteger : Nat := 2 ^ 53 - 1

/-- A 64-bit integer.  Readers of JSON that know only doubles would confuse large
ones, so these appear as numerals. -/
def renderLong (value : Int) : Json.Value :=
  if value.natAbs ≤ safeInteger then .int value
  else .string (String.ofList (Numeral.ofInt value))

/-- A double.  JSON has no number for those that are not finite. -/
def renderDouble (value : Double) : Json.Value :=
  match value.reading with
  | .finite _ _ _ => .number (.real value)
  | .infinite negative => .string (if negative then "-Infinity" else "Infinity")
  | .notANumber => .string "NaN"

/-- A number of an enumeration.  Without the enumeration it stays a number. -/
def renderEnumeration (pool : Pool) (id : EnumerationId) (number : Int) : Json.Value :=
  match (pool.enumeration? id).bind (·.nameOf? number) with
  | some name => .string name
  | none => .int number

/-- A number or boolean of a scalar type. -/
def renderNumeric? : Scalar → Wire.Value → Option Json.Value
  | .int32, .varint word => some (.int (signed 32 word.toNat))
  | .int64, .varint word => some (renderLong (signed 64 word.toNat))
  | .uint32, .varint word => some (.int (word.toNat % 2 ^ 32 : Nat))
  | .uint64, .varint word => some (renderLong word.toNat)
  | .sint32, .varint word => some (.int (Wire.ZigZag.decode (word.toNat % 2 ^ 32)))
  | .sint64, .varint word => some (renderLong (Wire.ZigZag.decode word.toNat))
  | .bool, .varint word => some (.bool (word ≠ 0))
  | .fixed32, .fixed32 word => some (.int word.toNat)
  | .sfixed32, .fixed32 word => some (.int (signed 32 word.toNat))
  | .float, .fixed32 word => some (renderDouble (.ofSingleDigits word))
  | .fixed64, .fixed64 word => some (renderLong word.toNat)
  | .sfixed64, .fixed64 word => some (renderLong (signed 64 word.toNat))
  | .double, .fixed64 word => some (renderDouble ⟨word⟩)
  | _, _ => none

/-- A value that can stand in a packed block: a number, a boolean, or a number of an
enumeration. -/
def renderPackable? (pool : Pool) : ValueType → Wire.Value → Option Json.Value
  | .scalar type, value => renderNumeric? type value
  | .enumeration id, .varint word => some (renderEnumeration pool id (signed 32 word.toNat))
  | _, _ => none

/-- Bytes as base64 text in its standard form. -/
def renderBytes (content : Bytes) : Json.Value :=
  .string (Bytes.Base64.text .standard content)

/-- How the zero of a type appears.  Messages have none. -/
def renderDefault (pool : Pool) : ValueType → Json.Value
  | .scalar .bool => .bool false
  | .scalar .string | .scalar .bytes => .string ""
  | .scalar .float | .scalar .double => .number (.real .zero)
  | .scalar _ => .int 0
  | .enumeration id =>
    renderEnumeration pool id ((pool.enumeration? id).elim 0 (·.defaultNumber))
  | .message _ => .null

/-- Whether two values that are neither arrays nor objects are the same.  Doubles are
compared by their words, so the negative zero is not the positive one. -/
def sameSimple : Json.Value → Json.Value → Bool
  | .null, .null => true
  | .bool first, .bool second => first = second
  | .number first, .number second => first = second
  | .string first, .string second => first = second
  | _, _ => false

/-- Whether a rendered value is the zero of its type. -/
def isDefault (pool : Pool) (type : ValueType) (value : Json.Value) : Bool :=
  sameSimple value (renderDefault pool type)

end SchemaRecords.Payload
