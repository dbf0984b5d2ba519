import SchemaRecords.Schema.Declaration
import SchemaRecords.Schema.Table

/-!
# Descriptors

What a schema declares once every name in it has been looked up.  Descriptors stand
in the lists of a pool, one list for each kind, and refer to each other by their
places there.  A place is wrapped in a type of its own kind, so that the place of a
message cannot be taken for that of an enumeration.

A map field stands for repeated entries, each a message with a key numbered 1 and a
value numbered 2.  The entry is a message like any other, except that no schema can
name it.
-/

namespace SchemaRecords.Schema

/-- Join a scope and a name with a dot.  The empty scope adds nothing. -/
def qualify (scope name : String) : String :=
  if scope = "" then name else scope ++ "." ++ name

/-! ## References -/

/-- The place of a message. -/
structure MessageId where
  index : Nat
  deriving DecidableEq, Repr

/-- The place of an enumeration. -/
structure EnumerationId where
  index : Nat
  deriving DecidableEq, Repr

/-- The place of a unit. -/
structure UnitId where
  index : Nat
  deriving DecidableEq, Repr

/-- What a full name stands for. -/
inductive Symbol where
  | message (id : MessageId)
  | enumeration (id : EnumerationId)
  deriving DecidableEq, Repr

/-! ## Types and fields -/

/-- The type of a single value. -/
inductive ValueType where
  | scalar (type : Scalar)
  | message (id : MessageId)
  | enumeration (id : EnumerationId)
  deriving DecidableEq, Repr

namespace ValueType

/-- The word for a type. -/
def keyword : ValueType → String
  | .scalar type => type.keyword
  | .message _ => "message"
  | .enumeration _ => "enum"

/-- How a single value is laid out. -/
def layout : ValueType → Wire.Layout
  | .scalar type => type.layout
  | .message _ => .delimited
  | .enumeration _ => .varint

/-- Whether repeated values may share one delimited block. -/
def isPackable : ValueType → Bool
  | .scalar type => type.isPackable
  | .message _ => false
  | .enumeration _ => true

/-- Whether values are messages. -/
def isMessage : ValueType → Bool
  | .message _ => true
  | _ => false

end ValueType

/-- The type that a symbol stands for. -/
def Symbol.type : Symbol → ValueType
  | .message id => .message id
  | .enumeration id => .enumeration id

/-- How many values a field holds.  Only a single value can be marked as explicitly
present or absent, and only repeated values can be packed.  The values of a map field
are those of its entries. -/
inductive Shape where
  | singular (type : ValueType) (explicit : Bool)
  | repeated (type : ValueType) (packed : Bool)
  | map (entry : MessageId)
  deriving DecidableEq, Repr

/-- The type of one value of a shape. -/
def Shape.type : Shape → ValueType
  | .singular type _ => type
  | .repeated type _ => type
  | .map entry => .message entry

/-- A field of a message.  `oneof` is a position in the list of oneofs of the
message. -/
structure Field where
  name : String
  jsonName : String
  number : Nat
  shape : Shape
  oneof : Option Nat
  deriving DecidableEq, Repr

namespace Field

/-- The type of one value of a field. -/
def type (field : Field) : ValueType := field.shape.type

/-- Whether a default value still counts as set. -/
def hasPresence (field : Field) : Bool :=
  match field.shape with
  | .singular type explicit => explicit || field.oneof.isSome || type.isMessage
  | _ => false

/-- Whether repeated values are written in one block. -/
def isPacked (field : Field) : Bool :=
  match field.shape with
  | .repeated _ packed => packed
  | _ => false

/-- Whether a field holds the entries of a map. -/
def isMap (field : Field) : Bool :=
  match field.shape with
  | .map _ => true
  | _ => false

/-- The key of a map entry as a field. -/
def entryKey (type : Scalar) : Field := ⟨"key", "key", 1, .singular (.scalar type) false, none⟩

/-- The value of a map entry as a field. -/
def entryValue (type : ValueType) : Field := ⟨"value", "value", 2, .singular type false, none⟩

end Field

/-- Underscores go, and the letter behind each is raised.  ASCII letters only. -/
def lowerCamelCase (name : String) : String :=
  String.ofList (go false name.toList)
where
  /-- `raise` says that an underscore was just dropped. -/
  go (raise : Bool) : List Char → List Char
    | [] => []
    | c :: rest =>
      if c = '_' then go true rest else (if raise then c.toUpper else c) :: go false rest

/-- As `lowerCamelCase`, with the first letter raised too. -/
def upperCamelCase (name : String) : String :=
  match (lowerCamelCase name).toList with
  | [] => ""
  | first :: rest => String.ofList (first.toUpper :: rest)

/-! ## Messages -/

/-- A oneof, and the positions of its members among the fields of the message. -/
structure Oneof where
  name : String
  members : List Nat
  deriving DecidableEq, Repr

/-- A message type.  Nested declarations are listed in the order of declaration, which
index paths count.  Fields are found through two tables that hold their positions. -/
structure Message where
  id : MessageId
  fullName : String
  name : String
  unit : UnitId
  parent : Option MessageId
  fields : List Field
  oneofs : List Oneof
  nestedMessages : List MessageId
  nestedEnumerations : List EnumerationId
  isMapEntry : Bool
  byNumber : Table Nat Nat
  byName : Table String Nat
  deriving DecidableEq, Repr

/-- The positions of fields under a key of each. -/
def positions {Key : Type} (key : Field → Key) (fields : List Field) : Table Key Nat :=
  .ofList (fields.zipIdx.map fun entry => (key entry.1, entry.2))

/-- The oneofs of some names, with the positions of their members. -/
def groupOneofs (names : List String) (fields : List Field) : List Oneof :=
  names.zipIdx.map fun entry =>
    ⟨entry.1, (fields.zipIdx.filter fun field => field.1.oneof = some entry.2).map (·.2)⟩

namespace Message

/-- Give a message its fields and file their positions. -/
def withFields (message : Message) (fields : List Field) (oneofs : List String) : Message :=
  { message with
    fields := fields
    oneofs := groupOneofs oneofs fields
    byNumber := positions Field.number fields
    byName := positions Field.name fields }

/-- The field of a number. -/
def fieldByNumber? (message : Message) (number : Nat) : Option Field :=
  (message.byNumber.find? number).bind fun position => message.fields[position]?

/-- The field of a name.  Names of the schema come before names of JSON. -/
def fieldByName? (message : Message) (name : String) : Option Field :=
  ((message.byName.find? name).bind fun position => message.fields[position]?).or
    (message.fields.find? fun field => field.jsonName = name)

/-- The members of a oneof. -/
def membersOf (message : Message) (oneof : Oneof) : List Field :=
  oneof.members.filterMap fun position => message.fields[position]?

end Message

/-! ## Enumerations and units -/

/-- An enumeration.  Several names may share a number. -/
structure Enumeration where
  fullName : String
  name : String
  unit : UnitId
  values : List EnumValue
  deriving DecidableEq, Repr

namespace Enumeration

/-- The last name that was declared for a number. -/
def nameOf? (enumeration : Enumeration) (number : Int) : Option String :=
  (enumeration.values.reverse.find? fun value => value.number = number).map (·.name)

/-- The last number that was declared for a name. -/
def numberOf? (enumeration : Enumeration) (name : String) : Option Int :=
  (enumeration.values.reverse.find? fun value => value.name = name).map (·.number)

/-- The number of the first value. -/
def defaultNumber (enumeration : Enumeration) : Int :=
  match enumeration.values with
  | [] => 0
  | first :: _ => first.number

end Enumeration

/-- A schema text that has been linked: its name, by which others import it, and what
it declares outside of any message. -/
structure SchemaUnit where
  name : String
  dialect : Dialect
  package : Option String
  dependencies : List UnitId
  publicDependencies : List UnitId
  messages : List MessageId
  enumerations : List EnumerationId
  deriving DecidableEq, Repr

end SchemaRecords.Schema
