import SchemaRecords.Number.Numeral
import SchemaRecords.Text.Split
import SchemaRecords.Url.Percent

/-!
# Hosts

The host of a URL is a domain name or an address.  Domain names are written in lower
case and in ASCII; a label outside ASCII goes by its code of base 36, and is taken to
be in its normal form already.  A name whose last label is a number is an address of
four bytes, which may be written in fewer parts and in three bases.  An address of
eight words stands in brackets and is written with its longest run of zeros left out.
-/

namespace SchemaRecords.Url

open SchemaRecords.Number

/-- Why a text is no URL below which paths can be. -/
inductive Fault where
  | noScheme
  | opaquePath
  | emptyHost
  | invalidPort
  | invalidDomain
  | invalidHostCharacter
  | invalidAddress4
  | invalidAddress6
  deriving DecidableEq, Repr

/-- The explanation of a fault. -/
def Fault.message : Fault → String
  | .noScheme => "relative URL without a base"
  | .opaquePath => "URL cannot have path segments"
  | .emptyHost => "empty host"
  | .invalidPort => "invalid port number"
  | .invalidDomain => "invalid international domain name"
  | .invalidHostCharacter => "invalid domain character"
  | .invalidAddress4 => "invalid IPv4 address"
  | .invalidAddress6 => "invalid IPv6 address"

/-- A host.  A name may be empty where the scheme allows it. -/
inductive Host where
  | name (text : List Char)
  | address4 (value : Nat)
  | address6 (words : List Nat)
  deriving DecidableEq, Repr

/-! ## Addresses of four bytes -/

/-- The value of a row of digits in a base.  No digits mean zero. -/
def digitsIn? (base : Nat) (digits : List Char) : Option Nat :=
  digits.foldlM (fun value c => (Numeral.digitIn? base c).map (value * base + ·)) 0

/-- A part of an address: hexadecimal after `0x`, octal after another zero. -/
def addressPart? : List Char → Option Nat
  | [] => none
  | '0' :: 'x' :: digits | '0' :: 'X' :: digits => digitsIn? 16 digits
  | '0' :: digit :: digits => digitsIn? 8 (digit :: digits)
  | digits => digitsIn? 10 digits

/-- The parts of a name, an empty last one left out. -/
def nameParts (name : List Char) : List (List Char) :=
  let parts := Text.splitAtChar '.' name
  if 1 < parts.length ∧ parts.getLast? = some [] then parts.dropLast else parts

/-- Whether the last part of a name is a number, so that the name has to be an
address. -/
def endsInNumber (name : List Char) : Bool :=
  match (nameParts name).getLast? with
  | none => false
  | some last =>
    (last ≠ [] && last.all fun c => (Numeral.digitValue? c).isSome) || (addressPart? last).isSome

/-- The address of its parts.  The last part fills all bytes that are left. -/
def joinAddress4 (parts : List Nat) : Except Fault Nat :=
  let leading := parts.dropLast
  let last := parts.getLastD 0
  if 4 < parts.length ∨ leading.any (255 < ·) ∨ 256 ^ (4 - leading.length) ≤ last then
    .error .invalidAddress4
  else
    .ok (leading.zipIdx.foldl (fun value (part, i) => value + part * 256 ^ (3 - i)) last)

/-- The address that a name has to be. -/
def readAddress4 (name : List Char) : Except Fault Nat :=
  match (nameParts name).mapM addressPart? with
  | some parts => joinAddress4 parts
  | none => .error .invalidAddress4

/-- The bytes of an address in decimal, with dots between them. -/
def renderAddress4 (value : Nat) : List Char :=
  let bytes := [value / 256 ^ 3, value / 256 ^ 2 % 256, value / 256 % 256, value % 256]
  ['.'].intercalate (bytes.map Numeral.ofNat)

/-! ## Addresses of eight words -/

/-- A word of one to four hexadecimal digits. -/
def word? (digits : List Char) : Option Nat :=
  if digits = [] ∨ 4 < digits.length then none else digitsIn? 16 digits

/-- A byte in decimal, without a superfluous zero in front. -/
def byte? (digits : List Char) : Option Nat :=
  if digits = [] ∨ (digits.head? = some '0' ∧ digits ≠ ['0']) then none
  else (digitsIn? 10 digits).filter (· ≤ 255)

/-- The words of a row with colons.  The last two may be given as four bytes. -/
def words? (text : List Char) : Option (List Nat) := do
  if text = [] then return []
  let parts := Text.splitAtChar ':' text
  let last := parts.getLastD []
  if last.contains '.' then
    let words ← parts.dropLast.mapM word?
    match ← (Text.splitAtChar '.' last).mapM byte? with
    | [a, b, c, d] => return words ++ [a * 256 + b, c * 256 + d]
    | _ => none
  else parts.mapM word?

/-- What stands before and after the first two colons in a row. -/
def splitAtGap : List Char → Option (List Char × List Char)
  | ':' :: ':' :: rest => some ([], rest)
  | c :: rest => (splitAtGap rest).map fun (before, after) => (c :: before, after)
  | [] => none

/-- The words of an address.  A gap stands for one zero word or more. -/
def readAddress6 (text : List Char) : Except Fault (List Nat) :=
  let words := match splitAtGap text with
    | none => (words? text).filter fun words => words.length = 8
    | some (before, after) => do
      if before.contains '.' then none
      let front ← words? before
      let back ← words? after
      if front.length + back.length < 8 then
        return front ++ List.replicate (8 - front.length - back.length) 0 ++ back
      else none
  match words with
  | some words => .ok words
  | none => .error .invalidAddress6

/-- How many zero words a list begins with. -/
def zeroRun (words : List Nat) : Nat := (words.takeWhile (· = 0)).length

/-- The first of the longest runs of zero words: where it begins, and its length. -/
def longestZeroRun (words : List Nat) : Nat × Nat :=
  (List.range words.length).foldl
    (fun (best : Nat × Nat) start =>
      let length := zeroRun (words.drop start)
      if best.2 < length then (start, length) else best)
    (0, 0)

/-- Words in lower-case hexadecimal, with colons between them. -/
def renderWords (words : List Nat) : List Char :=
  [':'].intercalate (words.map fun word => Nat.toDigits 16 word)

/-- An address with its longest run of at least two zero words left out. -/
def renderAddress6 (words : List Nat) : List Char :=
  let (start, length) := longestZeroRun words
  if length < 2 then renderWords words
  else renderWords (words.take start) ++ [':', ':'] ++ renderWords (words.drop (start + length))

/-! ## Names -/

/-- The characters that no domain name can hold. -/
def forbiddenInDomain (c : Char) : Bool :=
  c.toNat ≤ 32 || c.toNat = 127 ||
    ['%', '#', '/', ':', '<', '>', '?', '@', '[', '\\', ']', '^', '|'].contains c

/-- The characters that no other name of a host can hold. -/
def forbiddenInHost (c : Char) : Bool :=
  c.toNat = 0 ||
    [' ', '\t', '\n', '\r', '#', '/', ':', '<', '>', '?', '@', '[', '\\', ']', '^', '|'].contains c

/-- The digit of a value below thirty-six, letters first. -/
def labelDigit (value : Nat) : Char :=
  if value < 26 then Char.ofNat (97 + value) else Char.ofNat (22 + value)

/-- How far a difference is halved down when digits are adapted to it. -/
def adaptSteps (steps difference : Nat) : Nat :=
  if 455 < difference then adaptSteps (steps + 36) (difference / 35)
  else steps + 36 * difference / (difference + 38)
termination_by difference

/-- The bias of the digits behind a difference. -/
def adapt (difference count : Nat) (isFirst : Bool) : Nat :=
  let difference := if isFirst then difference / 700 else difference / 2
  adaptSteps 0 (difference + difference / count)

/-- The digits of a difference under a bias, whose weight grows with each. -/
def differenceDigits (bias : Nat) : (fuel place value : Nat) → List Char
  | 0, _, _ => []
  | fuel + 1, place, value =>
    let threshold := if place ≤ bias then 1 else min 26 (place - bias)
    if value < threshold then [labelDigit value]
    else
      labelDigit (threshold + (value - threshold) % (36 - threshold)) ::
        differenceDigits bias fuel (place + 36) ((value - threshold) / (36 - threshold))

/-- The state of coding a label: the code point so far, the difference so far, the bias
and how many characters are coded. -/
structure LabelState where
  difference : Nat
  bias : Nat
  coded : Nat
  digits : List Char

/-- Code the occurrences of one code point in a label. -/
def codeOccurrences (point basic : Nat) (label : List Char) (state : LabelState) : LabelState :=
  label.foldl
    (fun state c =>
      if c.toNat < point then { state with difference := state.difference + 1 }
      else if c.toNat = point then
        { difference := 0
          bias := adapt state.difference (state.coded + 1) (state.coded = basic)
          coded := state.coded + 1
          digits := state.digits ++ differenceDigits state.bias 40 36 state.difference }
      else state)
    state

/-- Code the code points outside ASCII of a label, given in ascending order. -/
def codePoints (basic : Nat) (label : List Char) :
    (previous : Nat) → List Nat → LabelState → LabelState
  | _, [], state => state
  | previous, point :: points, state =>
    let skipped := state.difference + (point - previous) * (state.coded + 1)
    let after := codeOccurrences point basic label { state with difference := skipped }
    codePoints basic label (point + 1) points { after with difference := after.difference + 1 }

/-- Insert a number into an ascending list, unless it is there. -/
def insertPoint (point : Nat) : List Nat → List Nat
  | [] => [point]
  | first :: rest =>
    if point < first then point :: first :: rest
    else if point = first then first :: rest
    else first :: insertPoint point rest

/-- A label in ASCII. -/
def asciiLabel (label : List Char) : List Char :=
  let basic := label.filter fun c => c.toNat < 128
  if basic.length = label.length then label
  else
    let points := (label.filter fun c => 128 ≤ c.toNat).foldl
      (fun points c => insertPoint c.toNat points) []
    let start : LabelState := ⟨0, 72, basic.length, if basic = [] then [] else basic ++ ['-']⟩
    ['x', 'n', '-', '-'] ++ (codePoints basic.length label 128 points start).digits

/-- The host that a domain name stands for. -/
def readDomain (text : List Char) : Except Fault Host :=
  match Text.Utf8.decode? (percentDecode (Text.Utf8.encode (String.ofList text))) with
  | none => .error .invalidDomain
  | some decoded =>
    let labels := Text.splitAtChar '.' (decoded.toList.map Char.toLower)
    let name := ['.'].intercalate (labels.map asciiLabel)
    if name = [] then .error .emptyHost
    else if name.any forbiddenInDomain then .error .invalidDomain
    else if endsInNumber name then (readAddress4 name).map .address4
    else .ok (.name name)

/-- The host of a text.  Only special schemes have domain names; in the others, a name
stands for itself. -/
def readHost (special : Bool) (text : List Char) : Except Fault Host :=
  match text with
  | '[' :: rest =>
    if rest.getLast? = some ']' then (readAddress6 rest.dropLast).map .address6
    else .error .invalidAddress6
  | _ =>
    if special then readDomain text
    else if text.any forbiddenInHost then .error .invalidHostCharacter
    else .ok (.name (percentEncode controlSet text))

/-- The text of a host. -/
def Host.render : Host → List Char
  | .name text => text
  | .address4 value => renderAddress4 value
  | .address6 words => '[' :: renderAddress6 words ++ [']']

end SchemaRecords.Url
