import SchemaRecords.Schema.Scalar

/-!
# Declarations of a schema text

What a schema text declares, before any name in it is looked up.  Type names are
kept as written.  Every list is in the order of declaration; index paths and the
default of an enumeration depend on it.

A declaration keeps its place as the number of tokens from there to the end of the
text.  Reading declarations is thereby independent of how the text is laid out.
-/

namespace SchemaRecords.Schema

/-- The edition of the schema language.  It decides presence and packing. -/
inductive Dialect where
  | proto2
  | proto3
  deriving DecidableEq, Repr

/-- The word in front of a field, if there is one. -/
inductive Label where
  | unlabelled
  | optional
  | required
  | repeated
  deriving DecidableEq, Repr

/-- A type as written: a scalar keyword or the name of a declaration. -/
inductive TypeName where
  | scalar (type : Scalar)
  | named (name : String)
  deriving DecidableEq, Repr

/-- The type of a field as written. -/
inductive FieldType where
  | single (type : TypeName)
  | map (key : Scalar) (value : TypeName)
  deriving DecidableEq, Repr

/-- A field of a message.  `oneof` is a position in the list of oneofs of the
message. -/
structure FieldDecl where
  name : String
  number : Nat
  label : Label
  type : FieldType
  oneof : Option Nat
  packed : Option Bool
  jsonName : Option String
  place : Nat
  deriving DecidableEq, Repr

/-- A value of an enumeration. -/
structure EnumValue where
  name : String
  number : Int
  deriving DecidableEq, Repr

/-- An enumeration. -/
structure EnumDecl where
  name : String
  values : List EnumValue
  deriving DecidableEq, Repr

/-- A message and everything that is declared inside of it. -/
structure MessageDecl where
  name : String
  fields : List FieldDecl
  oneofs : List String
  messages : List MessageDecl
  enums : List EnumDecl
  place : Nat
  deriving Repr

/-- An import of another unit, which may be passed on to importers. -/
structure ImportDecl where
  path : String
  isPublic : Bool
  deriving DecidableEq, Repr

/-- Everything that a schema text declares. -/
structure FileDecl where
  dialect : Dialect
  package : Option String
  imports : List ImportDecl
  messages : List MessageDecl
  enums : List EnumDecl
  deriving Repr

/-- The declarations of an empty text. -/
def FileDecl.empty : FileDecl := ⟨.proto2, none, [], [], []⟩

end SchemaRecords.Schema
