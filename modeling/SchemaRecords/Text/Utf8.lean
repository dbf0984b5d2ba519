import SchemaRecords.Bytes

/-!
# UTF-8

Two readings of a byte string as text.  The strict one accepts exactly the byte
strings that some text is written as, and is the inverse of writing on them.  The
lenient one accepts everything: each longest run of bytes that begins a character
and cannot be completed, and each byte that begins none, becomes one replacement
character.
-/

namespace SchemaRecords.Text.Utf8

/-- The bytes of a text. -/
def encode (text : String) : Bytes :=
  text.toByteArray.data.toList

/-- The bytes of one character. -/
def encodeChar (c : Char) : Bytes :=
  String.utf8EncodeChar c

/-- The text that a byte string is written as, if there is one. -/
def decode? (bytes : Bytes) : Option String :=
  String.fromUTF8? ⟨bytes.toArray⟩

theorem decode?_encode (text : String) : decode? (encode text) = some text := by
  have valid := text.isValidUTF8
  simp [decode?, encode, String.fromUTF8?, String.fromUTF8, valid]

/-! ## The lenient reading -/

/-- The character that stands for bytes which are no text. -/
def replacement : Char := '\ufffd'

/-- A character of which some bytes are read: how many are still owed, the range in
which the next one must lie, and the code point so far. -/
structure Pending where
  owed : Nat
  least : UInt8
  greatest : UInt8
  value : Nat

/-- Read a byte that stands where a character begins. -/
def start (byte : UInt8) : List Char × Option Pending :=
  if byte < 0x80 then ([Char.ofNat byte.toNat], none)
  else if byte < 0xC2 then ([replacement], none)
  else if byte < 0xE0 then ([], some ⟨1, 0x80, 0xBF, byte.toNat % 32⟩)
  else if byte = 0xE0 then ([], some ⟨2, 0xA0, 0xBF, 0⟩)
  else if byte = 0xED then ([], some ⟨2, 0x80, 0x9F, 13⟩)
  else if byte < 0xF0 then ([], some ⟨2, 0x80, 0xBF, byte.toNat % 16⟩)
  else if byte = 0xF0 then ([], some ⟨3, 0x90, 0xBF, 0⟩)
  else if byte < 0xF4 then ([], some ⟨3, 0x80, 0xBF, byte.toNat % 8⟩)
  else if byte = 0xF4 then ([], some ⟨3, 0x80, 0x8F, 4⟩)
  else ([replacement], none)

/-- Read a byte that stands inside a character.  One that cannot continue it ends
it, and is itself read as the beginning of the next. -/
def Pending.next (pending : Pending) (byte : UInt8) : List Char × Option Pending :=
  if pending.least ≤ byte ∧ byte ≤ pending.greatest then
    let value := pending.value * 64 + byte.toNat % 64
    if pending.owed ≤ 1 then ([Char.ofNat value], none)
    else ([], some ⟨pending.owed - 1, 0x80, 0xBF, value⟩)
  else
    let (written, state) := start byte
    (replacement :: written, state)

/-- Read the remaining bytes in a given state. -/
def decodeLossyFrom : Option Pending → Bytes → List Char
  | none, [] => []
  | some _, [] => [replacement]
  | none, byte :: rest =>
    let (written, state) := start byte
    written ++ decodeLossyFrom state rest
  | some pending, byte :: rest =>
    let (written, state) := pending.next byte
    written ++ decodeLossyFrom state rest

/-- The text of a byte string, with replacement characters for what is no text. -/
def decodeLossy (bytes : Bytes) : String :=
  String.ofList (decodeLossyFrom none bytes)

end SchemaRecords.Text.Utf8
