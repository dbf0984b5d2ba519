import SchemaRecords.Json.Reader

/-!
# Registered schemas

What a registry answers when it is asked for a schema: the text, the language it is
in, and the other schemas it refers to.  The answer is a JSON object; its members may
come in any order, and those that are not known here are passed over whatever they
hold, but a known one must not come twice.  An array of the members in their order is
read as well.
-/

namespace SchemaRecords.Registry

open SchemaRecords.Json

/-- A reference to another registered schema, under the name by which the text
imports it. -/
structure Reference where
  name : String
  subject : String
  version : Int
  deriving DecidableEq, Repr

/-- A registered schema. -/
structure RegisteredSchema where
  text : String
  language : Option String
  references : List Reference
  deriving DecidableEq, Repr

/-- The language of the schemas that can be compiled. -/
def protobuf : String := "PROTOBUF"

/-- The language of a schema.  A registry does not name the one it had first. -/
def RegisteredSchema.effectiveLanguage (schema : RegisteredSchema) : String :=
  schema.language.getD "AVRO"

/-! ## Reading -/

/-- The text of a JSON string. -/
def readText? : Tree → Option String
  | .string pieces => string? pieces
  | _ => none

/-- The text of a JSON string, or nothing for `null`. -/
def readNullable? : Tree → Option (Option String)
  | .null => some none
  | tree => (readText? tree).map some

/-- The integer of 32 bits that a JSON number is.  It has neither a fraction nor an
exponent, and is not minus zero. -/
def readVersion? : Tree → Option Int
  | .number written =>
    match number? written with
    | some (.integer n) => if -2 ^ 31 ≤ n ∧ n < 2 ^ 31 then some n else none
    | _ => none
  | _ => none

/-- The values of some keys among the members of an object.  No key may be unreadable,
and none of those asked for may come twice. -/
def select? (keys : List String) (members : List (List Piece × Tree)) :
    Option (List (Option Tree)) := do
  let members ← members.mapM fun (key, value) => (string? key).map fun key => (key, value)
  keys.mapM fun key =>
    match members.filter fun member => member.1 = key with
    | [] => some none
    | [member] => some (some member.2)
    | _ => none

/-- A reference.  All of its parts are needed. -/
def Reference.ofParts? : List (Option Tree) → Option Reference
  | [some name, some subject, some version] => do
    return ⟨← readText? name, ← readText? subject, ← readVersion? version⟩
  | _ => none

/-- The reference that a JSON value is. -/
def Reference.ofTree? : Tree → Option Reference
  | .object members => (select? ["name", "subject", "version"] members).bind ofParts?
  | .array items => ofParts? (items.map some)
  | _ => none

/-- The references that a JSON array holds. -/
def readReferences? : Tree → Option (List Reference)
  | .array items => items.mapM Reference.ofTree?
  | _ => none

namespace RegisteredSchema

/-- A registered schema.  Only its text is needed. -/
def ofParts? : List (Option Tree) → Option RegisteredSchema
  | [some text, language, references] => do
    let text ← readText? text
    let language ← match language with
      | none => some none
      | some tree => readNullable? tree
    let references ← match references with
      | none => some []
      | some tree => readReferences? tree
    return ⟨text, language, references⟩
  | _ => none

/-- The registered schema that a JSON value is. -/
def ofTree? : Tree → Option RegisteredSchema
  | .object members => (select? ["schema", "schemaType", "references"] members).bind ofParts?
  | .array items => ofParts? (items.map some ++ List.replicate (3 - items.length) none)
  | _ => none

/-- The registered schema that a JSON text is. -/
def read? (text : String) : Option RegisteredSchema :=
  (Tree.read? text.toList).bind ofTree?

end RegisteredSchema
end SchemaRecords.Registry
