import SchemaRecords.Registry.RegisteredSchema
import SchemaRecords.Schema.Registration

/-!
# Sources of schemas

A source answers requests for schemas, the same answer to the same request.  It may hold
any number of schemas, which may refer to each other in any way.  What is computed with a
source comes with the requests that were made for it, in order, those that failed included.

A catalog is a source that holds finitely many schemas.
-/

namespace SchemaRecords.Registry

open SchemaRecords.Schema

/-- A request for one schema: by its identifier, or as a version of a subject. -/
inductive Request where
  | byId (id : UInt32)
  | byVersion (subject : String) (version : Int)
  deriving DecidableEq, Repr

/-- How a requested schema is named. -/
def Request.describe : Request → String
  | .byId id => s!"id {id.toNat}"
  | .byVersion subject version => s!"{subject} version {version}"

/-- Why a schema cannot be had. -/
inductive RegistryError where
  | http (text : String) (causes : List String)
  | invalidUrl (url reason : String)
  | status (code : Nat) (url body : String)
  | invalidResponse (url : String)
  | unsupportedLanguage (request : Request) (language : String)
  | notFound (request : Request)
  | referenceCycle (name : String)
  | compile (unitName : String) (source : CompileError)
  deriving DecidableEq, Repr

namespace RegistryError

/-- The explanation of an error. -/
def message : RegistryError → String
  | .http text _ => "HTTP error: " ++ text
  | .invalidUrl url reason => s!"Invalid schema registry URL {url}: {reason}"
  | .status code url body => s!"Schema registry returned status {code} for {url}: {body}"
  | .invalidResponse url => s!"Invalid schema registry response from {url}"
  | .unsupportedLanguage request language =>
    s!"Schema {request.describe} has type {language}, only PROTOBUF is supported"
  | .notFound request => "Schema not found: " ++ request.describe
  | .referenceCycle name => s!"Schema reference cycle through \"{name}\""
  | .compile unitName source =>
    s!"Failed to compile schema unit \"{unitName}\": " ++ source.message

/-- The explanations of the errors behind an error, the nearest first. -/
def causes : RegistryError → List String
  | .http text causes => text :: causes
  | .compile _ source => [source.message]
  | _ => []

end RegistryError

/-- A result, and the requests that were made for it. -/
structure Fetch (α : Type) where
  requests : List Request
  result : Except RegistryError α

/-- The request for the schema that a reference refers to. -/
def Reference.request (reference : Reference) : Request :=
  .byVersion reference.subject reference.version

/-- A source of schemas. -/
structure Source where
  answer : Request → Except RegistryError RegisteredSchema

/-- Request a schema and require that it can be compiled. -/
def Source.fetch (source : Source) (request : Request) :
    Except RegistryError RegisteredSchema :=
  match source.answer request with
  | .error error => .error error
  | .ok schema =>
    if schema.effectiveLanguage = protobuf then .ok schema
    else .error (.unsupportedLanguage request schema.effectiveLanguage)

/-- Finitely many schemas.  Of two entries for one request the later counts. -/
abbrev Catalog := List (Request × RegisteredSchema)

namespace Catalog

/-- The schema of a request. -/
def find? (catalog : Catalog) (request : Request) : Option RegisteredSchema :=
  (List.find? (fun entry => entry.1 = request) catalog.reverse).map (·.2)

/-- A catalog as a source. -/
def source (catalog : Catalog) : Source where
  answer request :=
    match catalog.find? request with
    | some schema => .ok schema
    | none => .error (.notFound request)

end Catalog
end SchemaRecords.Registry
