import SchemaRecords.Wire.Kind

/-!
# Scalar types

The fifteen types that a schema can use without declaring them.
-/

namespace SchemaRecords.Schema

/-- A scalar type. -/
inductive Scalar where
  | double
  | float
  | int32
  | int64
  | uint32
  | uint64
  | sint32
  | sint64
  | fixed32
  | fixed64
  | sfixed32
  | sfixed64
  | bool
  | string
  | bytes
  deriving DecidableEq, Repr

namespace Scalar

/-- Every scalar type. -/
def all : List Scalar :=
  [.double, .float, .int32, .int64, .uint32, .uint64, .sint32, .sint64, .fixed32, .fixed64,
    .sfixed32, .sfixed64, .bool, .string, .bytes]

/-- The keyword of a type. -/
def keyword : Scalar → String
  | .double => "double"
  | .float => "float"
  | .int32 => "int32"
  | .int64 => "int64"
  | .uint32 => "uint32"
  | .uint64 => "uint64"
  | .sint32 => "sint32"
  | .sint64 => "sint64"
  | .fixed32 => "fixed32"
  | .fixed64 => "fixed64"
  | .sfixed32 => "sfixed32"
  | .sfixed64 => "sfixed64"
  | .bool => "bool"
  | .string => "string"
  | .bytes => "bytes"

/-- The type that a keyword names. -/
def ofKeyword? (word : String) : Option Scalar :=
  all.find? fun scalar => scalar.keyword = word

/-- Integers, booleans and strings may key a map. -/
def isMapKey : Scalar → Bool
  | .double | .float | .bytes => false
  | _ => true

/-- Whether repeated values may share one length-delimited block. -/
def isPackable : Scalar → Bool
  | .string | .bytes => false
  | _ => true

/-- How a single value is laid out. -/
def layout : Scalar → Wire.Layout
  | .double | .fixed64 | .sfixed64 => .fixed64
  | .float | .fixed32 | .sfixed32 => .fixed32
  | .string | .bytes => .delimited
  | _ => .varint

theorem ofKeyword?_keyword (scalar : Scalar) : ofKeyword? scalar.keyword = some scalar := by
  cases scalar <;> rfl

end Scalar
end SchemaRecords.Schema
