import SchemaRecords.Command.Arguments
import SchemaRecords.Command.SchemaFile
import SchemaRecords.Payload.Decoding
import SchemaRecords.Text.Split

/-!
# Commands

There are three commands.  One reads a stream of records with the schemas of a
registry; one decodes and one encodes a single payload with schema files.  This module
says what each of them can be told, and reads them from arguments and, where an option
of the registry is not among these, from the environment.
-/

namespace SchemaRecords

/-- Read a stream with the schemas of a registry. -/
structure ReadCommand where
  input : String
  registry : String
  username : Option String
  password : Option String
  timeout : String
  acceptsAnyCertificate : Bool
  capacity : Option Nat
  output : Payload.Options
  skipInvalid : Bool
  deriving DecidableEq, Repr

/-- Decode a payload with schema files. -/
structure DecodeCommand where
  schemas : List Command.SchemaFile
  messageType : Option String
  root : Option String
  index : List Int
  isFramed : Bool
  isHex : Bool
  output : Payload.Options
  payload : String
  deriving DecidableEq, Repr

/-- Encode a document with schema files. -/
structure EncodeCommand where
  schemas : List Command.SchemaFile
  messageType : String
  frameSchemaId : Option UInt32
  index : List Int
  document : String
  deriving DecidableEq, Repr

/-- A command. -/
inductive Command where
  | read (command : ReadCommand)
  | decode (command : DecodeCommand)
  | encode (command : EncodeCommand)
  deriving DecidableEq, Repr

namespace Command

open SchemaRecords.Number

/-- The values of variables that are set. -/
abbrev Environment := String → Option String

/-! ## Values of options -/

/-- The numbers of a list with commas. -/
def readIndices? (text : String) : Option (List Int) :=
  (Text.splitAtChar ',' text.toList).mapM fun part =>
    (Numeral.readInt (2 ^ 63 - 1) part).toOption

/-- A schema identifier. -/
def readSchemaId? (text : String) : Option UInt32 :=
  match Numeral.readInt (2 ^ 63 - 1) text.toList with
  | .ok id => if 0 ≤ id ∧ id < 2 ^ 32 then some (.ofNat id.toNat) else none
  | .error _ => none

/-- A number of cache entries. -/
def readCapacity? (text : String) : Option Nat :=
  (Numeral.readNat 10 (2 ^ 64 - 1) text.toList).toOption

/-- The operand of a command that needs one. -/
def requireOperand : Option String → Except Refusal String
  | none => .error .missingOperand
  | some operand => .ok operand

/-- An option without which a command makes no sense. -/
def requireOption (name : String) : Option String → Except Refusal String
  | none => .error (.missingOption name)
  | some value => .ok value

/-- Schema files, of which there is at least one. -/
def requireSchemas : List SchemaFile → Except Refusal (List SchemaFile)
  | [] => .error (.missingOption "proto")
  | schemas => .ok schemas

/-! ## Reading a stream -/

/-- The options of reading that are given so far. -/
structure ReadDraft where
  registry : Option String
  username : Option String
  password : Option String
  timeout : String
  acceptsAnyCertificate : Bool
  capacity : Option Nat
  output : Payload.Options
  skipInvalid : Bool

/-- Reading when no option is given. -/
def ReadDraft.initial : ReadDraft := ⟨none, none, none, "30s", false, none, ⟨false, false⟩, false⟩

/-- The options of reading. -/
def readRules : List (OptionRule ReadDraft) :=
  [{ name := "schema-registry",
     effect := .value fun value draft => some { draft with registry := some value } },
   { name := "registry-username",
     effect := .value fun value draft => some { draft with username := some value } },
   { name := "registry-password",
     effect := .value fun value draft => some { draft with password := some value } },
   { name := "registry-timeout",
     effect := .value fun value draft => some { draft with timeout := value } },
   { name := "insecure", effect := .flag fun draft => { draft with acceptsAnyCertificate := true } },
   { name := "cache-capacity",
     effect := .value fun value draft =>
       (readCapacity? value).map fun capacity => { draft with capacity := some capacity } },
   { name := "emit-defaults",
     effect := .flag fun draft => { draft with output := { draft.output with emitDefaults := true } } },
   { name := "json-names",
     effect := .flag fun draft => { draft with output := { draft.output with jsonNames := true } } },
   { name := "skip-invalid", effect := .flag fun draft => { draft with skipInvalid := true } }]

/-- The operand that stands for the standard input. -/
def standardInput : String := "-"

/-- The command to read.  The options of the registry may come from the environment. -/
def readCommand (environment : Environment) (arguments : List String) :
    Except Refusal ReadCommand := do
  let ⟨draft, _, operand⟩ ← Reading.readAll readRules arguments ⟨.initial, [], none⟩
  let registry ← requireOption "schema-registry"
    (draft.registry <|> environment "SCHEMA_REGISTRY_URL")
  return ⟨operand.getD standardInput, registry,
    draft.username <|> environment "SCHEMA_REGISTRY_USERNAME",
    draft.password <|> environment "SCHEMA_REGISTRY_PASSWORD",
    draft.timeout, draft.acceptsAnyCertificate, draft.capacity, draft.output, draft.skipInvalid⟩

/-! ## Decoding a payload -/

/-- The options of decoding that are given so far. -/
structure DecodeDraft where
  schemas : List SchemaFile
  messageType : Option String
  root : Option String
  index : List Int
  isFramed : Bool
  isHex : Bool
  output : Payload.Options

/-- Decoding when no option is given. -/
def DecodeDraft.initial : DecodeDraft := ⟨[], none, none, [], false, false, ⟨false, false⟩⟩

/-- The options of decoding. -/
def decodeRules : List (OptionRule DecodeDraft) :=
  [{ name := "proto", isRepeatable := true,
     effect := .value fun value draft =>
       (SchemaFile.read? value).map fun file => { draft with schemas := draft.schemas ++ [file] } },
   { name := "message-type",
     effect := .value fun value draft => some { draft with messageType := some value } },
   { name := "root", effect := .value fun value draft => some { draft with root := some value } },
   { name := "index", isRepeatable := true, isNumeric := true,
     effect := .value fun value draft =>
       (readIndices? value).map fun index => { draft with index := draft.index ++ index } },
   { name := "framed", effect := .flag fun draft => { draft with isFramed := true } },
   { name := "hex", effect := .flag fun draft => { draft with isHex := true } },
   { name := "emit-defaults",
     effect := .flag fun draft => { draft with output := { draft.output with emitDefaults := true } } },
   { name := "json-names",
     effect := .flag fun draft => { draft with output := { draft.output with jsonNames := true } } }]

/-- The command to decode. -/
def decodeCommand (arguments : List String) : Except Refusal DecodeCommand := do
  let ⟨draft, _, operand⟩ ← Reading.readAll decodeRules arguments ⟨.initial, [], none⟩
  return ⟨← requireSchemas draft.schemas, draft.messageType, draft.root, draft.index,
    draft.isFramed, draft.isHex, draft.output, ← requireOperand operand⟩

/-! ## Encoding a document -/

/-- The options of encoding that are given so far. -/
structure EncodeDraft where
  schemas : List SchemaFile
  messageType : Option String
  frameSchemaId : Option UInt32
  index : List Int

/-- Encoding when no option is given. -/
def EncodeDraft.initial : EncodeDraft := ⟨[], none, none, []⟩

/-- The options of encoding. -/
def encodeRules : List (OptionRule EncodeDraft) :=
  [{ name := "proto", isRepeatable := true,
     effect := .value fun value draft =>
       (SchemaFile.read? value).map fun file => { draft with schemas := draft.schemas ++ [file] } },
   { name := "message-type",
     effect := .value fun value draft => some { draft with messageType := some value } },
   { name := "frame-schema-id",
     effect := .value fun value draft =>
       (readSchemaId? value).map fun id => { draft with frameSchemaId := some id } },
   { name := "index", isRepeatable := true, isNumeric := true,
     effect := .value fun value draft =>
       (readIndices? value).map fun index => { draft with index := draft.index ++ index } }]

/-- The command to encode. -/
def encodeCommand (arguments : List String) : Except Refusal EncodeCommand := do
  let ⟨draft, _, operand⟩ ← Reading.readAll encodeRules arguments ⟨.initial, [], none⟩
  return ⟨← requireSchemas draft.schemas, ← requireOption "message-type" draft.messageType,
    draft.frameSchemaId, draft.index, ← requireOperand operand⟩

/-! ## Reading -/

/-- The command that arguments are. -/
def ofArguments (environment : Environment) : List String → Except Refusal Command
  | [] => .error .noCommand
  | name :: arguments =>
    match name with
    | "read" => (readCommand environment arguments).map .read
    | "decode" => (decodeCommand arguments).map .decode
    | "encode" => (encodeCommand arguments).map .encode
    | "help" => .error .help
    | _ =>
      if Argument.classify name.toList = .help then .error .help
      else .error (.unknownCommand name)

end Command
end SchemaRecords
