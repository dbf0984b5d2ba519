import SchemaRecords.Bytes.Base64
import SchemaRecords.Json.Printer
import SchemaRecords.Schema.Pool
import SchemaRecords.Text.Blank
import SchemaRecords.Text.Utf8
import SchemaRecords.Wire.Record
import SchemaRecords.Wire.ZigZag

/-!
# JSON values as wire values

How a value of a document becomes a value of a scalar type or an enumeration.
Integers may be written as numbers, as doubles without a fraction, or as numerals in
a string; floating-point numbers also by the words for what JSON has no number for;
bytes in any base64 form; and enumeration values by name or number.

An integer is first held against the range of 64 bits, signed or not, and then against
that of its type.  A double beyond the greatest 64-bit integer by no more than
rounding stands for that integer.
-/

namespace SchemaRecords.Payload

open SchemaRecords.Number
open SchemaRecords.Schema

/-- Why a document cannot be encoded. -/
inductive EncodeError where
  | unknownMessage (name : String)
  | invalidJson
  | unknownField (message field : String)
  | mismatch (field expected actual : String)
  | outOfRange (field type value : String)
  | unknownEnumValue (field enumeration value : String)
  | severalMembers (message oneof : String) (fields : List String)
  | duplicateField (field : String)
  | malformedEntry (entry : String)
  | unlinked (index : Nat)
  deriving DecidableEq, Repr

/-- The explanation of an error. -/
def EncodeError.message : EncodeError → String
  | .unknownMessage name => s!"Could not find descriptor for message type \"{name}\""
  | .invalidJson => "invalid JSON document"
  | .unknownField message field => s!"message {message} has no field named \"{field}\""
  | .mismatch field expected actual => s!"field \"{field}\" expects {expected}, got {actual}"
  | .outOfRange field type value =>
    s!"value {value} is out of range for field \"{field}\" of type {type}"
  | .unknownEnumValue field enumeration value =>
    s!"enum {enumeration} has no value named \"{value}\" (field \"{field}\")"
  | .severalMembers message oneof fields =>
    s!"oneof \"{oneof}\" of {message} has more than one member set: " ++ ", ".intercalate fields
  | .duplicateField field => s!"field \"{field}\" is set more than once"
  | .malformedEntry entry => s!"map entry {entry} must have exactly a key and a value"
  | .unlinked index => s!"descriptor {index} is not in the pool"

/-- The result of encoding. -/
abbrev Encoded (α : Type) := Except EncodeError α

/-- Refuse a value of the wrong kind. -/
def mismatch {α : Type} (field expected : String) (value : Json.Value) : Encoded α :=
  .error (.mismatch field expected value.kind)

/-- Refuse a value that the type cannot hold. -/
def outOfRange {α : Type} (field : String) (type : ValueType) (value : Json.Value) : Encoded α :=
  .error (.outOfRange field type.keyword value.text)

/-! ## Integers -/

/-- The integers between two bounds, and the word for them. -/
structure IntegerRange where
  least : Int
  greatest : Int
  word : String
  deriving DecidableEq, Repr

namespace IntegerRange

/-- Signed integers of 64 bits. -/
def signed64 : IntegerRange := ⟨-2 ^ 63, 2 ^ 63 - 1, "integer"⟩

/-- Unsigned integers of 64 bits. -/
def unsigned64 : IntegerRange := ⟨0, 2 ^ 64 - 1, "unsigned integer"⟩

/-- Whether an integer is in a range. -/
def holds (range : IntegerRange) (value : Int) : Bool :=
  range.least ≤ value && value ≤ range.greatest

/-- The integer of a numeral.  Only ranges that reach below zero have a minus sign in
their numerals, so `-0` is no numeral of the others. -/
def readNumeral (range : IntegerRange) (text : List Char) : Except Numeral.Fault Int :=
  if range.least < 0 then Numeral.readInt range.greatest.toNat text
  else (Numeral.readNat 10 range.greatest.toNat text).map Int.ofNat

end IntegerRange

/-- The integer that a value means in a range of 64 bits.  A numeral outside of it that
is in the `other` range of 64 bits is out of range, and any other text no integer. -/
def readLong (range other : IntegerRange) (field : String) (type : ValueType)
    (value : Json.Value) : Encoded Int :=
  match value with
  | .number (.integer n) => if range.holds n then .ok n else outOfRange field type value
  | .number (.real x) =>
    match x.integer? with
    | none => mismatch field "integer" value
    | some n =>
      if range.least ≤ n ∧ n ≤ range.greatest + 1 then .ok (min n range.greatest)
      else outOfRange field type value
  | .string text =>
    let numeral := Text.trim text.toList
    match range.readNumeral numeral with
    | .ok n => .ok n
    | .error _ =>
      match other.readNumeral numeral with
      | .ok _ => outOfRange field type value
      | .error _ => mismatch field range.word value
  | _ => mismatch field range.word value

/-- The signed integer of at most `width` bits that a value means. -/
def readSigned (width : Nat) (field : String) (type : ValueType) (value : Json.Value) :
    Encoded Int :=
  match readLong .signed64 .unsigned64 field type value with
  | .error error => .error error
  | .ok n =>
    if -2 ^ (width - 1) ≤ n ∧ n < 2 ^ (width - 1) then .ok n else outOfRange field type value

/-- The unsigned integer of at most `width` bits that a value means. -/
def readUnsigned (width : Nat) (field : String) (type : ValueType) (value : Json.Value) :
    Encoded Nat :=
  match readLong .unsigned64 .signed64 field type value with
  | .error error => .error error
  | .ok n => if n < 2 ^ width then .ok n.toNat else outOfRange field type value

/-! ## Other types -/

/-- The double that a value means. -/
def readDouble (field : String) (value : Json.Value) : Encoded Double :=
  match value with
  | .number (.integer n) => .ok (.ofInt n)
  | .number (.real x) => .ok x
  | .string "NaN" => .ok (.ofLiteral (.notANumber false))
  | .string "Infinity" => .ok (.ofLiteral (.infinity false))
  | .string "-Infinity" => .ok (.ofLiteral (.infinity true))
  | .string text =>
    match Literal.read? (Text.trim text.toList) with
    | some literal => .ok (.ofLiteral literal)
    | none => mismatch field "number" value
  | _ => mismatch field "number" value

/-- Whether the word of a 32-bit floating-point number is infinite. -/
def isInfiniteSingle (word : UInt32) : Bool :=
  match Format.single.read word.toNat with
  | .infinite _ => true
  | _ => false

/-- The word of the 32-bit floating-point number that a value means.  A finite number
must not become infinite by rounding. -/
def readSingle (field : String) (type : ValueType) (value : Json.Value) : Encoded UInt32 :=
  match readDouble field value with
  | .error error => .error error
  | .ok x =>
    if x.isFinite && isInfiniteSingle x.toSingle then outOfRange field type value
    else .ok x.toSingle

/-- A value of a scalar type. -/
def convertScalar (field : String) (type : Scalar) (value : Json.Value) : Encoded Wire.Value :=
  let typed := ValueType.scalar type
  match type with
  | .int32 => (readSigned 32 field typed value).map fun n => .varint (.ofInt n)
  | .int64 => (readSigned 64 field typed value).map fun n => .varint (.ofInt n)
  | .uint32 => (readUnsigned 32 field typed value).map fun n => .varint (.ofNat n)
  | .uint64 => (readUnsigned 64 field typed value).map fun n => .varint (.ofNat n)
  | .sint32 =>
    (readSigned 32 field typed value).map fun n => .varint (.ofNat (Wire.ZigZag.encode n))
  | .sint64 =>
    (readSigned 64 field typed value).map fun n => .varint (.ofNat (Wire.ZigZag.encode n))
  | .fixed32 => (readUnsigned 32 field typed value).map fun n => .fixed32 (.ofNat n)
  | .sfixed32 => (readSigned 32 field typed value).map fun n => .fixed32 (.ofInt n)
  | .fixed64 => (readUnsigned 64 field typed value).map fun n => .fixed64 (.ofNat n)
  | .sfixed64 => (readSigned 64 field typed value).map fun n => .fixed64 (.ofInt n)
  | .float => (readSingle field typed value).map .fixed32
  | .double => (readDouble field value).map fun x => .fixed64 x.word
  | .bool =>
    match value with
    | .bool b => .ok (.varint (if b then 1 else 0))
    | _ => mismatch field "bool" value
  | .string =>
    match value with
    | .string text => .ok (.delimited (Text.Utf8.encode text))
    | _ => mismatch field "string" value
  | .bytes =>
    match value with
    | .string text =>
      match Bytes.Base64.decodeAny? (Text.Utf8.encode text) with
      | some content => .ok (.delimited content)
      | none => mismatch field "base64 string" value
    | _ => mismatch field "base64 string" value

/-- A value of an enumeration. -/
def convertEnumeration (pool : Pool) (field : String) (id : EnumerationId) (value : Json.Value) :
    Encoded Wire.Value :=
  match pool.enumeration? id with
  | none => .error (.unlinked id.index)
  | some enumeration =>
    match value with
    | .string name =>
      match enumeration.numberOf? name with
      | some number => .ok (.varint (.ofInt number))
      | none => .error (.unknownEnumValue field enumeration.fullName name)
    | .number _ =>
      (readSigned 32 field (.enumeration id) value).map fun n => .varint (.ofInt n)
    | _ => mismatch field "enum name or number" value

/-- A value of a type that is not a message. -/
def convertSimple (pool : Pool) (field : String) (type : ValueType) (value : Json.Value) :
    Encoded Wire.Value :=
  match type with
  | .scalar type => convertScalar field type value
  | .enumeration id => convertEnumeration pool field id value
  | .message _ => mismatch field "object" value

/-- The value that `null` stands for in a map. -/
def zero (pool : Pool) (type : ValueType) : Wire.Value :=
  match type.layout with
  | .fixed32 => .fixed32 0
  | .fixed64 => .fixed64 0
  | .delimited => .delimited []
  | .varint =>
    match type with
    | .enumeration id =>
      .varint (.ofInt ((pool.enumeration? id).elim 0 (·.defaultNumber)))
    | _ => .varint 0

/-- Whether a value has no bit set. -/
def isZero : Wire.Value → Bool
  | .varint word => word = 0
  | .fixed64 word => word = 0
  | .fixed32 word => word = 0
  | .delimited content => content = []

end SchemaRecords.Payload
