import SchemaRecords.Number.Double

/-!
# JSON documents

The values of a JSON document.  The members of an object keep the order in which
their keys first arrived, and a key that arrives again replaces the value in place;
`insert` is the only operation that builds objects in this library, so their keys
are distinct.

Integers are kept apart from doubles: a document that says `7` and one that says
`7.0` are different documents.
-/

namespace SchemaRecords.Json

open SchemaRecords.Number

/-- A number of a document. -/
inductive Number where
  | integer (value : Int)
  | real (value : Double)
  deriving DecidableEq, Repr

/-- A JSON value. -/
inductive Value where
  | null
  | bool (value : Bool)
  | number (value : Number)
  | string (value : String)
  | array (items : List Value)
  | object (members : List (String × Value))
  deriving Repr, Inhabited

/-- The members of an object, in order. -/
abbrev Members := List (String × Value)

/-- Give a key a value.  A new key comes last; a known key keeps its place. -/
def Members.insert (key : String) (value : Value) : Members → Members
  | [] => [(key, value)]
  | member :: rest =>
    if member.1 = key then (key, value) :: rest else member :: insert key value rest

/-- Give keys their values one after the other. -/
def Members.insertAll (members additions : Members) : Members :=
  additions.foldl (fun object member => object.insert member.1 member.2) members

namespace Value

/-- An integer as a value. -/
def int (value : Int) : Value := .number (.integer value)

/-- Whether a value is `null`. -/
def isNull : Value → Bool
  | .null => true
  | _ => false

/-- The word for the kind of a value. -/
def kind : Value → String
  | .null => "null"
  | .bool _ => "bool"
  | .number _ => "number"
  | .string _ => "string"
  | .array _ => "array"
  | .object _ => "object"

end Value
end SchemaRecords.Json
