import SchemaRecords.Json.Printer
import SchemaRecords.Payload.Rendering

/-!
# From payloads to documents

A payload is taken apart into records.  Each record of a declared field, laid out as
the field's type says, is an occurrence of that field; all other records are
skipped.  From the occurrences of a field that come after the last occurrence of
another member of its oneof, its value is built: the last one for a scalar, the
decoding of all contents joined for a message, all elements for a repeated field, and
all entries, the later replacing the earlier, for a map.

Messages may be nested one hundred deep.  The message in the value of a map entry
counts two levels, because the entry is itself a message.  A decoder of some depth is
built from the decoders of the two depths below it.

Occurrences are looked at in order of their records, and the first fault found is the
one reported; a fault in a single message is found after all records have been read.
-/

namespace SchemaRecords.Payload

open SchemaRecords.Schema

/-! ## Errors and options -/

/-- Messages may be nested this deep. -/
def nestingLimit : Nat := 100

/-- Why a payload is no message of its type. -/
inductive DecodeError where
  | unknownMessage (name : String)
  | wire (message : String) (fault : Wire.Fault)
  | invalidText (message field : String)
  | tooDeep (message : String)
  | malformedEntry (entry : String)
  | unlinked (index : Nat)
  | inField (field : String) (source : DecodeError)
  deriving DecidableEq, Repr

/-- The explanation of a fault of the wire format inside a message. -/
def wireMessage (message : String) : Wire.Fault → String
  | .zeroNumber tag => s!"invalid tag {tag} in {message}"
  | .unknownKind number code => s!"invalid wire type {code} for field {number} in {message}"
  | .lengthOutOfBounds length remaining =>
    s!"length {length} in {message} exceeds the {remaining} remaining bytes"
  | .groupTooDeep => s!"message nesting exceeds {Wire.groupLimit} levels at {message}"
  | fault => s!"malformed payload for {message}: " ++ fault.message

/-- The explanation of an error. -/
def DecodeError.message : DecodeError → String
  | .unknownMessage name => s!"Could not find descriptor for message type \"{name}\""
  | .wire message fault => wireMessage message fault
  | .invalidText message field => s!"field \"{field}\" of {message} is not valid UTF-8"
  | .tooDeep message => s!"message nesting exceeds {nestingLimit} levels at {message}"
  | .malformedEntry entry =>
    s!"malformed payload for {entry}: map entry must have exactly a key and a value"
  | .unlinked index => s!"message {index} is not in the pool"
  | .inField field source => s!"in field \"{field}\": " ++ source.message

/-- The explanations of the errors behind an error, the nearest first. -/
def DecodeError.causes : DecodeError → List String
  | .inField _ source => source.message :: source.causes
  | _ => []

/-- The result of decoding. -/
abbrev Decoded (α : Type) := Except DecodeError α

/-- Name the field in which an error arose. -/
def inField {α : Type} (field : String) : Decoded α → Decoded α
  | .ok value => .ok value
  | .error source => .error (.inField field source)

/-- How a document shows a message. -/
structure Options where
  /-- Show fields that hold their defaults and empty repeated fields and maps. -/
  emitDefaults : Bool
  /-- Use JSON names as keys instead of names of the schema. -/
  jsonNames : Bool
  deriving DecidableEq, Repr

/-- Only what is set, under the names of the schema. -/
def Options.plain : Options := ⟨false, false⟩

/-- Decodes a payload of a message. -/
abbrev Decoder := Message → Bytes → Decoded Json.Value

/-- Decode a payload of the message at a place. -/
def Decoder.follow (decoder : Decoder) (pool : Pool) (id : MessageId) (payload : Bytes) :
    Decoded Json.Value :=
  match pool.message? id with
  | some message => decoder message payload
  | none => .error (.unlinked id.index)

/-! ## Values and records -/

/-- The value of a type in one record, unless it is laid out in another way. -/
def readValue? (pool : Pool) (decoder : Decoder) (message field : String) :
    ValueType → Wire.Value → Option (Decoded Json.Value)
  | .message id, .delimited content => some (inField field (decoder.follow pool id content))
  | .scalar .string, .delimited content =>
    match Text.Utf8.decode? content with
    | some text => some (.ok (.string text))
    | none => some (.error (.invalidText message field))
  | .scalar .bytes, .delimited content => some (.ok (renderBytes content))
  | type, value => (renderPackable? pool type value).map .ok

/-- The elements of a packed block. -/
def readPacked (pool : Pool) (message : String) (type : ValueType) (content : Bytes) :
    Decoded (List Json.Value) :=
  match Wire.Value.readAll type.layout content with
  | .ok values => .ok (values.filterMap (renderPackable? pool type))
  | .error fault => .error (.wire message fault)

/-- Interpret the records of a payload in order, leaving out those that have no
meaning. -/
def readRecords {α : Type} (interpret : Wire.Record → Option (Decoded α)) :
    List Wire.Record → Decoded (List α)
  | [] => .ok []
  | record :: rest =>
    match interpret record with
    | none => readRecords interpret rest
    | some (.error error) => .error error
    | some (.ok value) =>
      match readRecords interpret rest with
      | .error error => .error error
      | .ok values => .ok (value :: values)

/-- Interpret a payload.  A record that cannot be read is reported after everything in
front of it has been interpreted. -/
def readPayload {α : Type} (message : String) (interpret : Wire.Record → Option (Decoded α))
    (payload : Bytes) : Decoded (List α) :=
  let (records, fault) := Wire.Record.split payload
  match readRecords interpret records with
  | .error error => .error error
  | .ok values =>
    match fault with
    | some fault => .error (.wire message fault)
    | none => .ok values

/-! ## Map entries -/

/-- A part of a map entry. -/
inductive EntryPart where
  | key (value : Json.Value)
  | value (value : Json.Value)
  deriving Repr

/-- The part of an entry that a record holds. -/
def readEntryPart (pool : Pool) (decoder : Decoder) (entry : String) (key value : Field)
    (record : Wire.Record) : Option (Decoded EntryPart) :=
  match record.value with
  | none => none
  | some content =>
    if record.number = 1 then
      (readValue? pool decoder entry key.name key.type content).map (·.map .key)
    else if record.number = 2 then
      (readValue? pool decoder entry value.name value.type content).map (·.map .value)
    else none

/-- The text of a map key. -/
def keyText : Json.Value → String
  | .string text => text
  | value => value.text

/-- The keys among the parts of an entry. -/
def keysOf (parts : List EntryPart) : List Json.Value :=
  parts.filterMap fun part =>
    match part with
    | .key value => some value
    | .value _ => none

/-- The values among the parts of an entry. -/
def entryValuesOf (parts : List EntryPart) : List Json.Value :=
  parts.filterMap fun part =>
    match part with
    | .key _ => none
    | .value value => some value

/-- The value of an entry in which none is given: the zero of its type, and for a message
the decoding of an empty payload. -/
def decodeMissing (pool : Pool) (decoder : Decoder) : ValueType → Decoded Json.Value
  | .message id => decoder.follow pool id []
  | type => .ok (renderDefault pool type)

/-- The key and the value of a map entry.  A missing key is the zero of its type. -/
def decodeEntry (pool : Pool) (decoder : Decoder) (entry : Message) (payload : Bytes) :
    Decoded (String × Json.Value) :=
  match entry.fields with
  | [key, value] => do
    let parts ← readPayload entry.fullName (readEntryPart pool decoder entry.fullName key value)
      payload
    let found ← match (entryValuesOf parts).getLast? with
      | some last => .ok last
      | none => decodeMissing pool decoder value.type
    return (keyText ((keysOf parts).getLast?.getD (renderDefault pool key.type)), found)
  | _ => .error (.malformedEntry entry.fullName)

/-- Decode the entry at a place. -/
def decodeEntryAt (pool : Pool) (decoder : Decoder) (id : MessageId) (payload : Bytes) :
    Decoded (String × Json.Value) :=
  match pool.message? id with
  | some entry => decodeEntry pool decoder entry payload
  | none => .error (.unlinked id.index)

/-! ## Occurrences -/

/-- What a record gives its field. -/
inductive Contribution where
  | value (value : Json.Value)
  | content (bytes : Bytes)
  | elements (values : List Json.Value)
  | entry (key : String) (value : Json.Value)
  deriving Repr

/-- A record of a field. -/
structure Occurrence where
  field : Field
  contribution : Contribution
  deriving Repr

/-- What a value gives a field, unless it is not laid out as the field's type says. -/
def contribution? (pool : Pool) (decoder entryDecoder : Decoder) (message : Message)
    (field : Field) (value : Wire.Value) : Option (Decoded Contribution) :=
  match field.shape, value with
  | .map entry, .delimited content =>
    some (inField field.name
      ((decodeEntryAt pool entryDecoder entry content).map fun (key, value) => .entry key value))
  | .map _, _ => none
  | .repeated type _, .delimited content =>
    if type.isPackable then
      some ((readPacked pool message.fullName type content).map .elements)
    else
      (readValue? pool decoder message.fullName field.name type value).map
        (·.map fun element => .elements [element])
  | .repeated type _, value =>
    (readValue? pool decoder message.fullName field.name type value).map
      (·.map fun element => .elements [element])
  | .singular (.message _) _, .delimited content => some (.ok (.content content))
  | .singular type _, value =>
    (readValue? pool decoder message.fullName field.name type value).map (·.map .value)

/-- The occurrence that a record is. -/
def occurrence? (pool : Pool) (decoder entryDecoder : Decoder) (message : Message)
    (record : Wire.Record) : Option (Decoded Occurrence) := do
  let value ← record.value
  let field ← message.fieldByNumber? record.number
  let contribution ← contribution? pool decoder entryDecoder message field value
  return contribution.map (Occurrence.mk field)

/-- Whether an occurrence ends what came before it for a field: it is one of another
member of the same oneof. -/
def Occurrence.displaces (occurrence : Occurrence) (field : Field) : Bool :=
  field.oneof.isSome && occurrence.field.oneof = field.oneof &&
    occurrence.field.number ≠ field.number

/-- What the occurrences give a field, since the last one that displaces it. -/
def contributionsTo (field : Field) (occurrences : List Occurrence) : List Contribution :=
  let current := (occurrences.reverse.takeWhile fun occurrence => !occurrence.displaces field).reverse
  (current.filter fun occurrence => occurrence.field.number = field.number).map (·.contribution)

/-! ## Fields and messages -/

/-- The elements of a repeated field. -/
def elementsOf (contributions : List Contribution) : List Json.Value :=
  contributions.flatMap fun contribution =>
    match contribution with
    | .elements values => values
    | _ => []

/-- The contents of a message field. -/
def contentsOf (contributions : List Contribution) : List Bytes :=
  contributions.filterMap fun contribution =>
    match contribution with
    | .content bytes => some bytes
    | _ => none

/-- The values of a scalar field. -/
def valuesOf (contributions : List Contribution) : List Json.Value :=
  contributions.filterMap fun contribution =>
    match contribution with
    | .value value => some value
    | _ => none

/-- The entries of a map field after one more value of it, which replaces an earlier entry of
its key. -/
def addEntry (entries : Json.Members) : Contribution → Json.Members
  | .entry key value => entries.insert key value
  | _ => entries

/-- The entries of a map field. -/
def entriesOf (contributions : List Contribution) : Json.Members :=
  contributions.foldl addEntry []

/-- The value that a document shows for a field, if it shows one. -/
def fieldValue (pool : Pool) (options : Options) (decoder : Decoder) (field : Field)
    (contributions : List Contribution) : Decoded (Option Json.Value) :=
  match field.shape with
  | .singular (.message id) _ =>
    match contentsOf contributions with
    | [] => .ok none
    | contents => (inField field.name (decoder.follow pool id contents.flatten)).map some
  | .singular type _ =>
    match (valuesOf contributions).getLast? with
    | some value =>
      if !field.hasPresence && !options.emitDefaults && isDefault pool type value then .ok none
      else .ok (some value)
    | none =>
      if options.emitDefaults && !field.hasPresence then .ok (some (renderDefault pool type))
      else .ok none
  | .repeated _ _ =>
    match elementsOf contributions with
    | [] => .ok (if options.emitDefaults then some (.array []) else none)
    | values => .ok (some (.array values))
  | .map _ =>
    match entriesOf contributions with
    | [] => .ok (if options.emitDefaults then some (.object []) else none)
    | entries => .ok (some (.object entries))

/-- The key under which a document shows a field. -/
def Options.key (options : Options) (field : Field) : String :=
  if options.jsonNames then field.jsonName else field.name

/-- The members of a document, in the order in which the fields are declared. -/
def assemble (pool : Pool) (options : Options) (decoder : Decoder)
    (occurrences : List Occurrence) (members : Json.Members) :
    List Field → Decoded Json.Members
  | [] => .ok members
  | field :: rest =>
    match fieldValue pool options decoder field (contributionsTo field occurrences) with
    | .error error => .error error
    | .ok none => assemble pool options decoder occurrences members rest
    | .ok (some value) =>
      assemble pool options decoder occurrences (members.insert (options.key field) value) rest

/-- Decode a message, given how the messages in its fields and in the values of its
map entries are decoded. -/
def decodeLevel (pool : Pool) (options : Options) (decoder entryDecoder : Decoder) : Decoder :=
  fun message payload => do
    let occurrences ←
      readPayload message.fullName (occurrence? pool decoder entryDecoder message) payload
    let members ← assemble pool options decoder occurrences [] message.fields
    return .object members

/-- Refuse a message because it lies too deep. -/
def refuse : Decoder := fun message _ => .error (.tooDeep message.fullName)

/-- Decode a message with at most `levels` levels, its own included. -/
def decodeWithin (pool : Pool) (options : Options) : (levels : Nat) → Decoder
  | 0 => refuse
  | 1 => decodeLevel pool options refuse refuse
  | levels + 2 =>
    decodeLevel pool options (decodeWithin pool options (levels + 1))
      (decodeWithin pool options levels)

/-- The document of a payload. -/
def decode (pool : Pool) (options : Options) (name : String) (payload : Bytes) :
    Decoded Json.Value :=
  match pool.findMessage? name with
  | none => .error (.unknownMessage name)
  | some message => decodeWithin pool options nestingLimit message payload

end SchemaRecords.Payload
