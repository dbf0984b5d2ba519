import SchemaRecords.Text.Utf8

/-!
# Percent-encoding

A character that could be taken for a delimiter of a URL is written as its bytes, each
after a percent sign and in two upper-case hexadecimal digits.  Which characters these
are depends on the part of the URL; control characters and everything outside ASCII
belong to all of the sets.
-/

namespace SchemaRecords.Url

/-- A set of characters that are written as bytes. -/
abbrev EncodeSet := Char → Bool

/-- Control characters and everything outside ASCII. -/
def controlSet : EncodeSet := fun c => c.toNat < 32 || 127 ≤ c.toNat

/-- What is encoded behind the number sign. -/
def fragmentSet : EncodeSet := fun c => controlSet c || [' ', '"', '<', '>', '\x60'].contains c

/-- What is encoded behind the question mark. -/
def querySet (special : Bool) : EncodeSet := fun c =>
  controlSet c || [' ', '"', '#', '<', '>'].contains c || (special && c = '\'')

/-- What is encoded in a path. -/
def pathSet : EncodeSet := fun c => fragmentSet c || ['#', '?', '\x7b', '\x7d'].contains c

/-- What is encoded in a user name or a password. -/
def userinfoSet : EncodeSet := fun c =>
  pathSet c || ['/', ':', ';', '=', '@', '[', '\\', ']', '^', '|'].contains c

/-- What is encoded in a segment that is added to a path.  Nothing in it is taken for
a delimiter or for an encoding. -/
def segmentSet (special : Bool) : EncodeSet := fun c =>
  pathSet c || c = '/' || c = '%' || (special && c = '\\')

/-- The upper-case hexadecimal digit of a value below sixteen. -/
def upperHexDigit (value : Nat) : Char :=
  if value < 10 then Char.ofNat (48 + value) else Char.ofNat (55 + value)

/-- A byte after a percent sign. -/
def percentByte (byte : UInt8) : List Char :=
  ['%', upperHexDigit (byte.toNat / 16), upperHexDigit (byte.toNat % 16)]

/-- A text with the characters of a set written as bytes. -/
def percentEncode (set : EncodeSet) (text : List Char) : List Char :=
  text.flatMap fun c => if set c then (Text.Utf8.encodeChar c).flatMap percentByte else [c]

/-- The value of a hexadecimal digit that is given as a byte. -/
def hexValue? (byte : UInt8) : Option Nat :=
  if 48 ≤ byte ∧ byte ≤ 57 then some (byte.toNat - 48)
  else if 97 ≤ byte ∧ byte ≤ 102 then some (byte.toNat - 87)
  else if 65 ≤ byte ∧ byte ≤ 70 then some (byte.toNat - 55)
  else none

/-- The bytes of a text in which bytes may be written after percent signs.  A percent
sign that no two digits follow stands for itself. -/
def percentDecode : Bytes → Bytes
  | 37 :: high :: low :: rest =>
    match hexValue? high, hexValue? low with
    | some high, some low => UInt8.ofNat (high * 16 + low) :: percentDecode rest
    | _, _ => 37 :: percentDecode (high :: low :: rest)
  | byte :: rest => byte :: percentDecode rest
  | [] => []

end SchemaRecords.Url
