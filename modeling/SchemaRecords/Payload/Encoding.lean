import SchemaRecords.Json.Reader
import SchemaRecords.Payload.Conversion

/-!
# From documents to payloads

The payload of a document is canonical: its records are in the order of their field
numbers, repeated numbers are packed as the schema says, and a field without presence
is left out when its value is zero.  The members of the document may come in any
order and go by either name of their fields; `null` means that a field is not set.

The members of a message are checked in the order of the document, then the oneofs in
the order of the schema, and only then are values converted, in the order of field
numbers.
-/

namespace SchemaRecords.Payload

open SchemaRecords.Schema

/-- A field that a document sets, and the records for its value. -/
structure Setting where
  field : Field
  records : Encoded Bytes

/-- The members of a oneof that are set. -/
def setMembers (message : Message) (settings : List Setting) (oneof : Oneof) : List Field :=
  (message.membersOf oneof).filter fun member =>
    settings.any fun setting => setting.field.number = member.number

/-- No oneof of a message has two members set. -/
def checkOneofs (message : Message) (settings : List Setting) : List Oneof → Encoded Unit
  | [] => .ok ()
  | oneof :: rest =>
    let set := setMembers message settings oneof
    if 1 < set.length then
      .error (.severalMembers message.fullName oneof.name (set.map (·.name)))
    else checkOneofs message settings rest

/-- The records of all settings, one after the other. -/
def joinRecords : List Setting → Encoded Bytes
  | [] => .ok []
  | setting :: rest =>
    match setting.records with
    | .error error => .error error
    | .ok records =>
      match joinRecords rest with
      | .error error => .error error
      | .ok others => .ok (records ++ others)

/-- Put a setting in front of the first that has no smaller field number. -/
def insertByNumber (setting : Setting) : List Setting → List Setting
  | [] => [setting]
  | first :: rest =>
    if setting.field.number ≤ first.field.number then setting :: first :: rest
    else first :: insertByNumber setting rest

/-- Settings in the order of their field numbers. -/
def sortByNumber (settings : List Setting) : List Setting :=
  settings.foldr insertByNumber []

/-- The payload of a message with some settings. -/
def assemblePayload (message : Message) (settings : List Setting) : Encoded Bytes := do
  checkOneofs message settings message.oneofs
  joinRecords (sortByNumber settings)

/-- The record of a single value.  Without presence, zero is not written. -/
def singleRecord (field : Field) (converted : Encoded Wire.Value) : Encoded Bytes :=
  converted.map fun value =>
    if !field.hasPresence && isZero value then [] else Wire.Record.encode field.number value

/-- The records of repeated values. -/
def repeatedRecords (field : Field) (packed : Bool) (converted : Encoded (List Wire.Value)) :
    Encoded Bytes :=
  converted.map fun values =>
    if values = [] then []
    else if packed then
      Wire.Record.encode field.number (.delimited (values.flatMap Wire.Value.encode))
    else values.flatMap (Wire.Record.encode field.number)

/-- The content of a map entry. -/
def entryContent (keyField valueField : Field) (key value : Wire.Value) : Bytes :=
  Wire.Record.encode keyField.number key ++ Wire.Record.encode valueField.number value

/-- The records of map entries. -/
def entryRecords (field : Field) (converted : Encoded (List Bytes)) : Encoded Bytes :=
  converted.map fun contents =>
    contents.flatMap fun content => Wire.Record.encode field.number (.delimited content)

/-- The records of a field, given how its value is converted to what its shape asks for. -/
def fieldRecords (field : Field) (single : ValueType → Encoded Wire.Value)
    (elements : ValueType → Encoded (List Wire.Value))
    (entries : MessageId → Encoded (List Bytes)) : Encoded Bytes :=
  match field.shape with
  | .singular type _ => singleRecord field (single type)
  | .repeated type packed => repeatedRecords field packed (elements type)
  | .map entry => entryRecords field (entries entry)

/-- The value that the text of a map key spells.  Booleans are spelled out; numbers are
numerals. -/
def keyValue (type : ValueType) (key : String) : Json.Value :=
  match type, key with
  | .scalar .bool, "true" => .bool true
  | .scalar .bool, "false" => .bool false
  | _, text => .string text

/-- The key of a map entry. -/
def convertKey (pool : Pool) (field : Field) (key : String) : Encoded Wire.Value :=
  convertSimple pool field.name field.type (keyValue field.type key)

mutual

/-- A value of any type. -/
def convert (pool : Pool) (field : String) (type : ValueType) : Json.Value → Encoded Wire.Value
  | .object members =>
    match type with
    | .message id =>
      match pool.message? id with
      | none => .error (.unlinked id.index)
      | some message =>
        match settings pool message [] members with
        | .error error => .error error
        | .ok settings => (assemblePayload message settings).map .delimited
    | _ => convertSimple pool field type (.object members)
  | value => convertSimple pool field type value

/-- The elements of a repeated field. -/
def convertElements (pool : Pool) (field : String) (type : ValueType) :
    Json.Value → Encoded (List Wire.Value)
  | .array items => convertItems pool field type items
  | value => mismatch field "array" value

/-- The items of an array, none of which may be `null`. -/
def convertItems (pool : Pool) (field : String) (type : ValueType) :
    List Json.Value → Encoded (List Wire.Value)
  | [] => .ok []
  | item :: rest =>
    match if item.isNull then mismatch field type.keyword item else convert pool field type item with
    | .error error => .error error
    | .ok value =>
      match convertItems pool field type rest with
      | .error error => .error error
      | .ok values => .ok (value :: values)

/-- The entries of a map field. -/
def convertMap (pool : Pool) (field : String) (entry : MessageId) :
    Json.Value → Encoded (List Bytes)
  | .object entries =>
    match pool.message? entry with
    | none => .error (.unlinked entry.index)
    | some message =>
      match message.fields with
      | [key, value] => convertEntries pool key value entries
      | _ => .error (.malformedEntry message.fullName)
  | value => mismatch field "object" value

/-- The entries of an object, in which `null` stands for zero. -/
def convertEntries (pool : Pool) (key value : Field) :
    List (String × Json.Value) → Encoded (List Bytes)
  | [] => .ok []
  | (name, item) :: rest =>
    match convertKey pool key name with
    | .error error => .error error
    | .ok first =>
      match
        if item.isNull then .ok (zero pool value.type)
        else convert pool value.name value.type item with
      | .error error => .error error
      | .ok second =>
        match convertEntries pool key value rest with
        | .error error => .error error
        | .ok contents => .ok (entryContent key value first second :: contents)

/-- The fields that the members of an object set, after those of some numbers. -/
def settings (pool : Pool) (message : Message) (earlier : List Nat) :
    List (String × Json.Value) → Encoded (List Setting)
  | [] => .ok []
  | (name, value) :: rest =>
    match message.fieldByName? name with
    | none => .error (.unknownField message.fullName name)
    | some field =>
      if value.isNull then settings pool message earlier rest
      else if field.number ∈ earlier then .error (.duplicateField field.name)
      else
        let records := fieldRecords field (fun type => convert pool field.name type value)
          (fun type => convertElements pool field.name type value)
          (fun entry => convertMap pool field.name entry value)
        match settings pool message (field.number :: earlier) rest with
        | .error error => .error error
        | .ok others => .ok (⟨field, records⟩ :: others)

end

/-- The payload of a document. -/
def encode (pool : Pool) (name : String) (document : Json.Value) : Encoded Bytes :=
  match pool.findMessage? name with
  | none => .error (.unknownMessage name)
  | some message =>
    match document with
    | .object members =>
      match settings pool message [] members with
      | .error error => .error error
      | .ok settings => assemblePayload message settings
    | _ => mismatch message.fullName "object" document

/-- The payload of a document that is given as text.  An unknown message is reported
before a text that is no document. -/
def encodeText (pool : Pool) (name text : String) : Encoded Bytes :=
  match pool.findMessage? name with
  | none => .error (.unknownMessage name)
  | some _ =>
    match Json.Value.read? text with
    | none => .error .invalidJson
    | some document => encode pool name document

end SchemaRecords.Payload
