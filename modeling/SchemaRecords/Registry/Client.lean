import SchemaRecords.Bytes.Base64
import SchemaRecords.Registry.Source
import SchemaRecords.Url.Reader

/-!
# Registries behind a URL

A client asks a registry for schemas.  A request for a schema becomes the URL of its
endpoint below the base of the registry; a subject is one segment of the path whatever
characters it has.  The answer is a registered schema if the status says so.

How requests reach the registry is left open: a transport answers them, or tells why
nothing did.  A client over a transport is a source of schemas.
-/

namespace SchemaRecords.Registry

/-! ## Messages -/

/-- A request as it is sent.  The URL says nothing of users; each authorization is a
header of its own. -/
structure HttpRequest where
  url : Url
  accept : String
  authorizations : List String
  deriving DecidableEq, Repr

/-- What comes back. -/
structure HttpResponse where
  status : Nat
  body : String
  deriving DecidableEq, Repr

/-- How requests are answered.  If nothing answers, the causes are told, the nearest
first. -/
abbrev Transport := HttpRequest → Except (List String) HttpResponse

/-- The transport of a machine without a network. -/
def Transport.unreachable : Transport := fun _ =>
  .error ["client error (Connect)", "tcp connect error", "Network is unreachable (os error 101)"]

/-! ## Clients -/

/-- A user name, and a password if there is one. -/
structure Credentials where
  username : String
  password : Option String
  deriving DecidableEq, Repr

/-- The header that carries credentials. -/
def Credentials.header (credentials : Credentials) : String :=
  "Basic " ++ Bytes.Base64.text .standard
    (Text.Utf8.encode (credentials.username ++ ":" ++ credentials.password.getD ""))

/-- The credentials that a URL carries, if it has any that are text. -/
def Credentials.ofUrl? (url : Url) : Option Credentials := do
  let authority ← url.authority
  let decoded (text : List Char) : Option String :=
    Text.Utf8.decode? (Url.percentDecode (Text.Utf8.encode (String.ofList text)))
  let username ← decoded authority.username
  let password := if authority.password = [] then none else decoded authority.password
  if username = "" ∧ password = none then none else some ⟨username, password⟩

/-- A registry below a base URL. -/
structure Client where
  base : Url
  credentials : Option Credentials
  deriving DecidableEq, Repr

namespace Client

/-- The client of the registry that a text names. -/
def connect (base : String) (credentials : Option Credentials) : Except RegistryError Client :=
  match Url.read base with
  | .error fault => .error (.invalidUrl base fault.message)
  | .ok url => .ok ⟨url, credentials⟩

/-- The path of a request below the base. -/
def segments : Request → List String
  | .byId id => ["schemas", "ids", String.ofList (Number.Numeral.ofNat id.toNat)]
  | .byVersion subject version =>
    ["subjects", subject, "versions", String.ofList (Number.Numeral.ofInt version)]

/-- The URL of a request. -/
def endpoint (client : Client) (request : Request) : Url :=
  client.base.addSegments (segments request)

/-- The media type in which a registry answers. -/
def accepted : String := "application/vnd.schemaregistry.v1+json"

/-- The message that is sent for a URL. -/
def message (client : Client) (url : Url) : HttpRequest where
  url := url.withoutUser
  accept := accepted
  authorizations := ((Credentials.ofUrl? url).toList ++ client.credentials.toList).map (·.header)

/-- The schema that a response from a URL holds. -/
def readResponse (url : Url) (response : HttpResponse) : Except RegistryError RegisteredSchema :=
  if 200 ≤ response.status ∧ response.status < 300 then
    match RegisteredSchema.read? response.body with
    | some schema => .ok schema
    | none => .error (.invalidResponse url.text)
  else .error (.status response.status url.text response.body)

/-- Send a message.  Only two schemes are spoken. -/
def send (transport : Transport) (message : HttpRequest) : Except RegistryError HttpResponse :=
  let url := message.url.text
  if message.url.scheme = "http".toList ∨ message.url.scheme = "https".toList then
    match transport message with
    | .ok response => .ok response
    | .error causes => .error (.http s!"error sending request for url ({url})" causes)
  else .error (.http s!"builder error for url ({url})" ["URL scheme is not allowed"])

/-- The answer to a request. -/
def answer (client : Client) (transport : Transport) (request : Request) :
    Except RegistryError RegisteredSchema := do
  let url := client.endpoint request
  readResponse url (← send transport (client.message url))

/-- A registry as a source of schemas. -/
def source (client : Client) (transport : Transport) : Source :=
  ⟨client.answer transport⟩

end Client
end SchemaRecords.Registry
