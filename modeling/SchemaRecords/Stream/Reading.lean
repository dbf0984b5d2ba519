import SchemaRecords.Payload.Decoding
import SchemaRecords.Registry.Cache
import SchemaRecords.Schema.IndexPath
import SchemaRecords.Stream.Record

/-!
# Streams as documents

Every record of a stream becomes one document.  Its value is a frame; the schema of
the frame comes from a cache, the index path of the frame selects a message in the
schema, and the payload is decoded as that message.

A record whose index path or payload is invalid can be skipped.  Bytes that are no
record, values that are no frames and schemas that cannot be had end the reading.
-/

namespace SchemaRecords.Stream

open SchemaRecords.Registry
open SchemaRecords.Schema

/-- Why a record has no document. -/
inductive RecordError where
  | framing (error : FramingError)
  | registry (offset : String) (error : RegistryError)
  | resolve (offset : String) (error : ResolveError)
  | decode (offset : String) (error : Payload.DecodeError)
  deriving DecidableEq, Repr

namespace RecordError

/-- An explanation of what happened at an offset. -/
def atOffset (offset text : String) : String := s!"record at offset {offset}: " ++ text

/-- The explanation of an error. -/
def message : RecordError → String
  | .framing error => error.message
  | .registry offset error => atOffset offset error.message
  | .resolve offset error => atOffset offset error.message
  | .decode offset error => atOffset offset error.message

/-- The explanations of the errors behind an error, the nearest first. -/
def causes : RecordError → List String
  | .framing _ => []
  | .registry _ error => error.message :: error.causes
  | .resolve _ error => [error.message]
  | .decode _ error => error.message :: error.causes

/-- Whether reading can go on behind the record. -/
def isSkippable : RecordError → Bool
  | .resolve _ _ | .decode _ _ => true
  | _ => false

end RecordError

/-- How a stream is read. -/
structure ReadOptions where
  decoding : Payload.Options
  skipInvalid : Bool
  deriving DecidableEq, Repr

/-- What came of one record. -/
structure Attempt where
  requests : List Request
  cache : Cache
  result : Except RecordError Json.Value

/-- The document of a record, given the pool of its schema. -/
def Record.decodeFrame (options : Payload.Options) (record : Record) (frame : Frame)
    (pool : Pool) : Except RecordError Json.Value :=
  match pool.resolve rootUnit frame.index with
  | .error error => .error (.resolve record.offset error)
  | .ok message =>
    match Payload.decode pool options message.fullName frame.payload with
    | .error error => .error (.decode record.offset error)
    | .ok decoded => .ok (record.document decoded)

/-- Try to make a document of a record; nothing if the schema takes for ever. -/
def Record.attempt (source : Source) (options : Payload.Options) (cache : Cache)
    (record : Record) : Option Attempt :=
  match Frame.decode record.value with
  | .error error => some ⟨[], cache, .error (.framing error)⟩
  | .ok frame =>
    (cache.get source frame.schemaId).map fun lookup =>
      match lookup.result with
      | .error error => ⟨lookup.requests, lookup.cache, .error (.registry record.offset error)⟩
      | .ok pool => ⟨lookup.requests, lookup.cache, record.decodeFrame options frame pool⟩

/-- What came of a stream: its documents, how many records were skipped, the requests
made, the cache afterwards, and what ended the reading too early. -/
structure Report where
  documents : List Json.Value
  skipped : Nat
  requests : List Request
  cache : Cache
  error : Option RecordError

/-- Read records, of which the last is followed by bytes that may be none; nothing if the
reading never ends. -/
def readRecords (source : Source) (options : ReadOptions) (fault : Option FramingError) :
    Cache → List Record → Option Report
  | cache, [] => some ⟨[], 0, [], cache, fault.map .framing⟩
  | cache, record :: rest => do
    let attempt ← record.attempt source options.decoding cache
    match attempt.result with
    | .ok document =>
      let report ← readRecords source options fault attempt.cache rest
      return { report with
        documents := document :: report.documents
        requests := attempt.requests ++ report.requests }
    | .error error =>
      if options.skipInvalid && error.isSkippable then
        let report ← readRecords source options fault attempt.cache rest
        return { report with
          skipped := report.skipped + 1
          requests := attempt.requests ++ report.requests }
      else return ⟨[], 0, attempt.requests, attempt.cache, some error⟩

/-- Read a stream. -/
def readStream (source : Source) (options : ReadOptions) (cache : Cache) (bytes : Bytes) :
    Option Report :=
  let (records, fault) := Record.readAll bytes
  readRecords source options fault cache records

end SchemaRecords.Stream
