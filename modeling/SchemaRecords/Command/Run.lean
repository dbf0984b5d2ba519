import SchemaRecords.Command.Failure
import SchemaRecords.Command.Reader
import SchemaRecords.Registry.Client

/-!
# Running commands

What a command writes, given the files, the standard input and the network around it.
Whatever was written before a failure stays written.
-/

namespace SchemaRecords

open SchemaRecords.Command
open SchemaRecords.Schema

namespace Command

/-- What a command finds around it. -/
structure Surroundings where
  files : Files
  input : Bytes
  transport : Registry.Transport

/-- What a command leaves: its exit code, what it writes, and what it complains of. -/
structure Outcome where
  code : Nat
  output : String
  complaint : String
  deriving DecidableEq, Repr

namespace Outcome

/-- A line of output. -/
def line (text : String) : String := text ++ "\n"

/-- The outcome of a command that fails after some output. -/
def failed (output : String) (failure : Failure) : Outcome := ⟨1, output, failure.message⟩

/-- The outcome of a command that writes one line, if it does not fail. -/
def ofResult : Except Failure String → Outcome
  | .ok text => ⟨0, line text, ""⟩
  | .error failure => failed "" failure

/-- The outcome of arguments that are no command. -/
def refused : Refusal → Outcome
  | .help => ⟨0, line Refusal.help.message, ""⟩
  | refusal => ⟨2, "", refusal.message⟩

end Outcome

/-- Register the schema files of a command. -/
def registerSchemas (files : Files) (schemas : List SchemaFile) : Except Failure Pool :=
  (SchemaFile.registerAll files schemas).mapError .schemaFile

/-- The index path that counts: one that is given wins. -/
def chooseIndex (given other : List Int) : List Int := if given = [] then other else given

end Command

/-! ## Decoding a payload -/

namespace DecodeCommand

/-- The bytes that are given as text. -/
def bytes (command : DecodeCommand) : Except Failure Bytes :=
  let text := Text.Utf8.encode (String.ofList (Text.trim command.payload.toList))
  if command.isHex then (Bytes.Hex.decode text).mapError .notHex
  else (Bytes.Base64.decode .standard text).mapError .notBase64

/-- The index path and the payload. -/
def unwrap (command : DecodeCommand) (bytes : Bytes) : Except Failure (List Int × Bytes) :=
  if command.isFramed then
    match Stream.Frame.decode bytes with
    | .error error => .error (.notFramed error)
    | .ok frame => .ok (chooseIndex command.index frame.index, frame.payload)
  else .ok (command.index, bytes)

/-- The unit in which an index path starts: the last one, unless another is given. -/
def rootUnit (pool : Pool) (command : DecodeCommand) : Except Failure String :=
  match command.root <|> pool.units.getLast?.map (·.name) with
  | none => .error .noSchemaFile
  | some root => .ok root

/-- The type of the message: the one that is given, or else the one at the index
path. -/
def typeOfMessage (pool : Pool) (command : DecodeCommand) (index : List Int) :
    Except Failure String :=
  match command.messageType with
  | some messageType => .ok messageType
  | none =>
    match command.rootUnit pool with
    | .error failure => .error failure
    | .ok root =>
      match pool.resolve root index with
      | .error error => .error (.unresolvedIndex index error)
      | .ok message => .ok message.fullName

/-- The document of the payload, when the schema files are registered. -/
def document (pool : Pool) (command : DecodeCommand) : Except Failure Json.Value := do
  let (index, payload) ← command.unwrap (← command.bytes)
  let messageType ← command.typeOfMessage pool index
  (Payload.decode pool command.output messageType payload).mapError (.undecodable messageType)

/-- The text that is written. -/
def text (surroundings : Surroundings) (command : DecodeCommand) : Except Failure String := do
  let pool ← registerSchemas surroundings.files command.schemas
  return (← command.document pool).text

end DecodeCommand

/-! ## Encoding a document -/

namespace EncodeCommand

/-- The text of the document. -/
def documentText (input : Bytes) (command : EncodeCommand) : Except Failure String :=
  if command.document = standardInput then
    match Text.Utf8.decode? input with
    | none => .error .documentNotText
    | some text => .ok text
  else .ok command.document

/-- The index path of the frame: the one that is given, or else that of the message. -/
def frameIndex (pool : Pool) (command : EncodeCommand) : Except Failure (List Int) :=
  if command.index ≠ [] then .ok command.index
  else
    match (pool.findMessage? command.messageType).bind pool.indexPath? with
    | none => .error (.noIndex command.messageType)
    | some index => .ok index

/-- A payload in its frame, if it is to have one. -/
def wrap (pool : Pool) (command : EncodeCommand) (payload : Bytes) : Except Failure Bytes :=
  match command.frameSchemaId with
  | none => .ok payload
  | some id => (command.frameIndex pool).map fun index => Stream.Frame.encode ⟨id, index, payload⟩

/-- The bytes of a document, when the schema files are registered. -/
def bytes (pool : Pool) (command : EncodeCommand) (document : String) : Except Failure Bytes := do
  let payload ← (Payload.encodeText pool command.messageType document).mapError
    (.unencodable command.messageType)
  command.wrap pool payload

/-- The text that is written. -/
def text (surroundings : Surroundings) (command : EncodeCommand) : Except Failure String := do
  let pool ← registerSchemas surroundings.files command.schemas
  let document ← command.documentText surroundings.input
  return Bytes.Base64.text .standard (← command.bytes pool document)

end EncodeCommand

/-! ## Reading a stream -/

namespace ReadCommand

/-- The client of the registry. -/
def client (command : ReadCommand) : Except Failure Registry.Client := do
  let _ ← (Duration.read command.timeout).mapError (.invalidTimeout command.timeout)
  (Registry.Client.connect command.registry
    (command.username.map fun username => ⟨username, command.password⟩)).mapError .noClient

/-- The bytes of the stream. -/
def stream (surroundings : Surroundings) (command : ReadCommand) : Except Failure Bytes :=
  if command.input = standardInput then .ok surroundings.input
  else (surroundings.files command.input).mapError (.unreadableInput command.input)

/-- Read the stream; no report comes of a reading that never ends. -/
def report (surroundings : Surroundings) (command : ReadCommand) :
    Except Failure (Option Stream.Report) := do
  let client ← command.client
  let bytes ← command.stream surroundings
  return Stream.readStream (client.source surroundings.transport)
    ⟨command.output, command.skipInvalid⟩ (.empty command.capacity) bytes

/-- The outcome of what came of a stream. -/
def outcome (report : Stream.Report) : Outcome :=
  let output := String.join (report.documents.map fun document => Outcome.line document.text)
  match report.error with
  | none => ⟨0, output, ""⟩
  | some error => .failed output (.record error)

end ReadCommand

/-! ## All commands -/

namespace Command

/-- Run a command.  Reading a stream never ends if the references of a schema do not. -/
def run (surroundings : Surroundings) : Command → Option Outcome
  | .read command =>
    match command.report surroundings with
    | .ok report => report.map ReadCommand.outcome
    | .error failure => some (.failed "" failure)
  | .decode command => some (.ofResult (command.text surroundings))
  | .encode command => some (.ofResult (command.text surroundings))

/-- Run what arguments say. -/
def runArguments (environment : Environment) (surroundings : Surroundings)
    (arguments : List String) : Option Outcome :=
  match ofArguments environment arguments with
  | .error refusal => some (.refused refusal)
  | .ok command => command.run surroundings

/-- The paths of the files that a command may read. -/
def paths : Command → List String
  | .read command => if command.input = standardInput then [] else [command.input]
  | .decode command => command.schemas.map (·.path)
  | .encode command => command.schemas.map (·.path)

/-- Whether a command may read the standard input. -/
def readsInput : Command → Bool
  | .read command => command.input = standardInput
  | .decode _ => false
  | .encode command => command.document = standardInput

end Command
end SchemaRecords
