import SchemaRecords.Bytes.Base64
import SchemaRecords.Bytes.Hex
import SchemaRecords.Command.Duration
import SchemaRecords.Command.SchemaFile
import SchemaRecords.Payload.Encoding
import SchemaRecords.Stream.Reading

/-!
# Failures

What can go wrong when a command runs.  A failure is told by explanations, from what
the command was about to do down to what is behind it.
-/

namespace SchemaRecords.Command

/-- Why a command fails. -/
inductive Failure where
  | schemaFile (error : SchemaFileError)
  | notHex (fault : Bytes.Hex.Fault)
  | notBase64 (fault : Bytes.Base64.Fault)
  | notFramed (error : Stream.FramingError)
  | noSchemaFile
  | unresolvedIndex (index : List Int) (error : Schema.ResolveError)
  | undecodable (messageType : String) (error : Payload.DecodeError)
  | documentNotText
  | unencodable (messageType : String) (error : Payload.EncodeError)
  | noIndex (messageType : String)
  | invalidTimeout (text : String) (fault : Duration.Fault)
  | noClient (error : Registry.RegistryError)
  | unreadableInput (path reason : String)
  | record (error : Stream.RecordError)
  deriving DecidableEq, Repr

/-- The text of an index path. -/
def renderIndex (index : List Int) : String :=
  "[" ++ ", ".intercalate (index.map fun i => String.ofList (Number.Numeral.ofInt i)) ++ "]"

namespace Failure

/-- The explanations of a failure, from the outermost to what is behind it. -/
def explanations : Failure → List String
  | .schemaFile error => error.explanations
  | .notHex fault => ["Payload is not valid hex", fault.message]
  | .notBase64 fault => ["Payload is not valid base64", fault.message]
  | .notFramed error => ["Failed to parse frame", error.message]
  | .noSchemaFile => ["No schema files loaded"]
  | .unresolvedIndex index error =>
    ["Failed to resolve message index " ++ renderIndex index, error.message]
  | .undecodable messageType error =>
    ["Failed to decode " ++ messageType, error.message] ++ error.causes
  | .documentNotText => ["Failed to read JSON from stdin", notText]
  | .unencodable messageType error => ["Failed to encode " ++ messageType, error.message]
  | .noIndex messageType => [messageType ++ " has no message index"]
  | .invalidTimeout text fault => ("Invalid --registry-timeout: " ++ text) :: fault.explanations
  | .noClient error =>
    ["Failed to create schema registry client", error.message] ++ error.causes
  | .unreadableInput path reason => ["Failed to open record file: " ++ path, reason]
  | .record error => error.message :: error.causes

/-- The explanations in one line. -/
def message (failure : Failure) : String :=
  "Error: " ++ ": ".intercalate failure.explanations

end Failure
end SchemaRecords.Command
