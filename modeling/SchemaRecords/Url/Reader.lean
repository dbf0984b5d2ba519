import SchemaRecords.Url.Host

/-!
# URLs

A URL below which paths can be: a scheme, an authority, the segments of a path, and
what stands behind the path.  It is kept in its normal form.  Scheme and host are in
lower case, the default port of the scheme is left out, segments that mean the same
path or the one above it are followed, and characters that have to be encoded are.

The schemes that name the common protocols are special: they need a host, they take
the backslash for a slash, and their path is never empty.
-/

namespace SchemaRecords.Url

/-- Who is asked, under which name, and where.  User name and password are empty when
they are not given. -/
structure Authority where
  username : List Char
  password : List Char
  host : Host
  port : Option Nat
  deriving DecidableEq, Repr

end SchemaRecords.Url

namespace SchemaRecords

/-- A URL with a path of segments. -/
structure Url where
  scheme : List Char
  authority : Option Url.Authority
  path : List (List Char)
  query : Option (List Char)
  fragment : Option (List Char)
  deriving DecidableEq, Repr

namespace Url

open SchemaRecords.Number

/-! ## Writing -/

/-- The text of a port behind its colon. -/
def renderPort : Option Nat → List Char
  | none => []
  | some port => ':' :: Numeral.ofNat port

/-- The text of user name and password with the sign behind them. -/
def Authority.renderUser (authority : Authority) : List Char :=
  if authority.username = [] ∧ authority.password = [] then []
  else
    authority.username ++
      (if authority.password = [] then [] else ':' :: authority.password) ++ ['@']

/-- The text of an authority with the slashes in front of it. -/
def Authority.render (authority : Authority) : List Char :=
  ['/', '/'] ++ authority.renderUser ++ authority.host.render ++ renderPort authority.port

/-- The text of a path.  Without an authority, two slashes at its front would be taken
for one. -/
def renderPath (hasAuthority : Bool) (path : List (List Char)) : List Char :=
  let text := path.flatMap ('/' :: ·)
  match hasAuthority, path with
  | false, [] :: _ :: _ => ['/', '.'] ++ text
  | _, _ => text

/-- The text of what stands behind a mark, if anything does. -/
def renderBehind (mark : Char) : Option (List Char) → List Char
  | none => []
  | some text => mark :: text

/-- The text of a URL. -/
def render (url : Url) : List Char :=
  url.scheme ++ [':'] ++ (url.authority.elim [] Authority.render) ++
    renderPath url.authority.isSome url.path ++ renderBehind '?' url.query ++
    renderBehind '#' url.fragment

/-- The text of a URL as a string. -/
def text (url : Url) : String := String.ofList url.render

/-! ## Schemes -/

/-- The special schemes and their default ports. -/
def specialSchemes : List (String × Option Nat) :=
  [("http", some 80), ("https", some 443), ("ws", some 80), ("wss", some 443), ("ftp", some 21),
    ("file", none)]

/-- Whether a scheme is special. -/
def isSpecialScheme (scheme : List Char) : Bool :=
  specialSchemes.any fun special => special.1 = String.ofList scheme

/-- The default port of a scheme. -/
def defaultPort? (scheme : List Char) : Option Nat :=
  (specialSchemes.find? fun special => special.1 = String.ofList scheme).bind (·.2)

/-- Whether the scheme of a URL is special. -/
def isSpecial (url : Url) : Bool := isSpecialScheme url.scheme

/-! ## Paths -/

/-- Whether a segment means the same path. -/
def isSingleDot (segment : List Char) : Bool :=
  [".", "%2e"].contains (String.ofList (segment.map Char.toLower))

/-- Whether a segment means the path above. -/
def isDoubleDot (segment : List Char) : Bool :=
  ["..", ".%2e", "%2e.", "%2e%2e"].contains (String.ofList (segment.map Char.toLower))

/-- Follow one segment.  The last one leaves a path that ends in a segment, if only in
an empty one. -/
def follow (path : List (List Char)) (segment : List Char) (isLast : Bool) :
    List (List Char) :=
  let ending : List (List Char) := if isLast then [[]] else []
  if isDoubleDot segment then path.dropLast ++ ending
  else if isSingleDot segment then path ++ ending
  else path ++ [segment]

/-- Follow segments one after the other. -/
def followAll : (path : List (List Char)) → (segments : List (List Char)) → List (List Char)
  | path, [] => path
  | path, [segment] => follow path segment true
  | path, segment :: next :: rest => followAll (follow path segment false) (next :: rest)

/-- The backslashes of special schemes as slashes. -/
def withSlashes (special : Bool) (text : List Char) : List Char :=
  if special then text.map fun c => if c = '\\' then '/' else c else text

/-- The path of a text that begins behind the authority. -/
def readPath (special : Bool) (text : List Char) : List (List Char) :=
  let segments (text : List Char) :=
    (Text.splitAtChar '/' text).map (percentEncode pathSet)
  match withSlashes special text with
  | '/' :: rest => followAll [] (segments rest)
  | [] => if special then [[]] else []
  | text => followAll [] (segments text)

/-! ## Authorities -/

/-- Whether a character ends the authority. -/
def endsAuthority (special : Bool) (c : Char) : Bool :=
  c = '/' || c = '?' || c = '#' || (special && c = '\\')

/-- What stands before and after the last occurrence of a character. -/
def splitAtLast (separator : Char) (text : List Char) : Option (List Char × List Char) :=
  match text.reverse.dropWhile (· ≠ separator) with
  | [] => none
  | _ :: before => some (before.reverse, (text.reverse.takeWhile (· ≠ separator)).reverse)

/-- The text of a host up to the port, whose colon stands outside of brackets. -/
def spanHost : (bracketed : Bool) → List Char → List Char × List Char
  | _, [] => ([], [])
  | bracketed, c :: rest =>
    if c = ':' ∧ ¬ bracketed then ([], c :: rest)
    else
      let (host, after) := spanHost (if c = '[' then true else if c = ']' then false else bracketed) rest
      (c :: host, after)

/-- The port that digits mean.  No digits, and the default port, mean none. -/
def readPort (scheme digits : List Char) : Except Fault (Option Nat) :=
  match digitsIn? 10 digits with
  | none => .error .invalidPort
  | some port =>
    if 65535 < port then .error .invalidPort
    else if digits = [] ∨ defaultPort? scheme = some port then .ok none
    else .ok (some port)

/-- Host and port of an authority. -/
def readHostAndPort (scheme username password text : List Char) : Except Fault Authority := do
  let special := isSpecialScheme scheme
  let (hostText, after) := spanHost false text
  if hostText = [] ∧ (special ∨ after ≠ []) then .error .emptyHost
  else
    let host ← readHost special hostText
    let port ← readPort scheme after.tail
    .ok ⟨username, password, host, port⟩

/-- The authority that a text is. -/
def readAuthority (scheme text : List Char) : Except Fault Authority :=
  match splitAtLast '@' text with
  | none => readHostAndPort scheme [] [] text
  | some (user, rest) =>
    let (username, password) := (Text.splitAtFirst? ':' user).getD (user, [])
    readHostAndPort scheme (percentEncode userinfoSet username) (percentEncode userinfoSet password)
      rest

/-! ## Reading -/

/-- Whether a character is passed over wherever it stands. -/
def isIgnored (c : Char) : Bool := c = '\t' || c = '\n' || c = '\r'

/-- A text without the control characters and blanks around it, and without those that
are passed over. -/
def clean (text : List Char) : List Char :=
  let outer (c : Char) : Bool := c.toNat ≤ 32
  (((text.dropWhile outer).reverse.dropWhile outer).reverse).filter fun c => !isIgnored c

/-- The scheme of a text in lower case, and what stands behind its colon. -/
def readScheme? : List Char → Option (List Char × List Char)
  | [] => none
  | first :: rest =>
    if first.isAlpha then
      let isPart (c : Char) : Bool := c.isAlphanum || c = '+' || c = '-' || c = '.'
      match rest.dropWhile isPart with
      | ':' :: after => some ((first :: rest.takeWhile isPart).map Char.toLower, after)
      | _ => none
    else none

/-- A URL of which the scheme and the authority are read. -/
def readBehindAuthority (scheme : List Char) (authority : Option Authority) (text : List Char) :
    Url :=
  let special := isSpecialScheme scheme
  let (before, fragment) := (text.takeWhile (· ≠ '#'), text.dropWhile (· ≠ '#'))
  let (path, query) := (before.takeWhile (· ≠ '?'), before.dropWhile (· ≠ '?'))
  let behind (set : EncodeSet) : List Char → Option (List Char)
    | [] => none
    | _ :: text => some (percentEncode set text)
  ⟨scheme, authority, readPath special path, behind (querySet special) query,
    behind fragmentSet fragment⟩

/-- A URL of which the scheme and the slashes in front of the authority are read. -/
def readBehindSlashes (scheme text : List Char) : Except Fault Url := do
  let ends := endsAuthority (isSpecialScheme scheme)
  let authority ← readAuthority scheme (text.takeWhile fun c => !ends c)
  return readBehindAuthority scheme (some authority) (text.dropWhile fun c => !ends c)

/-- A path without the empty segments in front of others. -/
def dropEmptyFront : (path : List (List Char)) → List (List Char)
  | [] :: segment :: rest => dropEmptyFront (segment :: rest)
  | path => path

/-- The URL of a file on a host. -/
def readFilePath (scheme : List Char) (host : Host) (text : List Char) : Url :=
  let url := readBehindAuthority scheme (some ⟨[], [], host, none⟩) text
  { url with path := dropEmptyFront url.path }

/-- A URL of a file.  Its host may be missing, and the local one is not written. -/
def readFile (scheme text : List Char) : Except Fault Url :=
  match withSlashes true (text.take 2) with
  | ['/', '/'] => do
    let ends := endsAuthority true
    let hostText := (text.drop 2).takeWhile fun c => !ends c
    let host ← if hostText = [] then .ok (.name []) else readHost true hostText
    let host := if host = .name "localhost".toList then .name [] else host
    return readFilePath scheme host ((text.drop 2).dropWhile fun c => !ends c)
  | _ => .ok (readFilePath scheme (.name []) text)

/-- The URL of a text. -/
def read (text : String) : Except Fault Url :=
  match readScheme? (clean text.toList) with
  | none => .error .noScheme
  | some (scheme, rest) =>
    if scheme = "file".toList then readFile scheme rest
    else if isSpecialScheme scheme then
      readBehindSlashes scheme (rest.dropWhile fun c => c = '/' || c = '\\')
    else
      match rest with
      | '/' :: '/' :: rest => readBehindSlashes scheme rest
      | '/' :: _ => .ok (readBehindAuthority scheme none rest)
      | _ => .error .opaquePath

/-! ## User names -/

/-- The URL without user name and password. -/
def withoutUser (url : Url) : Url :=
  { url with
    authority := url.authority.map fun authority => { authority with username := [], password := [] } }

/-! ## Adding segments -/

/-- The path without the empty segment that a slash at its end makes. -/
def dropEmptyEnd (url : Url) : Url :=
  if 1 < url.path.length ∧ url.path.getLast? = some [] then { url with path := url.path.dropLast }
  else url

/-- Add a segment to the path.  Dots that would mean another path are left out, but
only as long as nothing has to be passed over to see them. -/
def addSegment (url : Url) (segment : String) : Url :=
  if segment = "." ∨ segment = ".." then url
  else
    let written :=
      percentEncode (segmentSet url.isSpecial) (segment.toList.filter fun c => !isIgnored c)
    { url with path := follow (if url.path = [[]] then [] else url.path) written true }

/-- Add segments to the path. -/
def addSegments (url : Url) (segments : List String) : Url :=
  segments.foldl addSegment url.dropEmptyEnd

end Url
end SchemaRecords
