import SchemaRecords.Wire.Varint
import SchemaRecords.Wire.ZigZag

/-!
# Frames

A frame stands around the payload of a record and says how to read it: a magic byte,
the identifier of the schema, and the index path of the message in that schema, its
length in front.  The path to the first message is so common that it is written as a
path of length zero, and that is how a path of length zero is read.
-/

namespace SchemaRecords.Stream

/-- What a reader was about to read. -/
inductive Part where
  | header
  | messageIndex
  | recordLength
  | recordValue
  deriving DecidableEq, Repr

/-- How a part is named. -/
def Part.name : Part → String
  | .header => "frame header"
  | .messageIndex => "message index"
  | .recordLength => "record length"
  | .recordValue => "record value"

/-- Why bytes are no frame or no record. -/
inductive FramingError where
  | endOfInput (part : Part)
  | wrongMagic (byte : UInt8)
  | invalidCount (count : Int)
  deriving DecidableEq, Repr

/-- The explanation of an error. -/
def FramingError.message : FramingError → String
  | .endOfInput part => "Unexpected EOF while reading " ++ part.name
  | .wrongMagic byte => s!"Incorrect magic byte ({byte.toNat})"
  | .invalidCount count => s!"Invalid message index array length: {count}"

/-- The first byte of every frame. -/
def magic : UInt8 := 0

/-- The longest index path that is read. -/
def maxIndexCount : Nat := 100000

/-- A payload and how to read it. -/
structure Frame where
  schemaId : UInt32
  index : List Int
  payload : Bytes
  deriving DecidableEq, Repr

namespace Frame

/-- One number of an index path. -/
def readIndex (bytes : Bytes) : Except FramingError (Int × Bytes) :=
  match Wire.Varint.read .long bytes with
  | .ok (code, rest) => .ok (Wire.ZigZag.decode code, rest)
  | .error _ => .error (.endOfInput .messageIndex)

/-- Several numbers of an index path. -/
def readIndices : (count : Nat) → Bytes → Except FramingError (List Int × Bytes)
  | 0, bytes => .ok ([], bytes)
  | count + 1, bytes =>
    match readIndex bytes with
    | .error error => .error error
    | .ok (index, rest) =>
      match readIndices count rest with
      | .error error => .error error
      | .ok (indices, after) => .ok (index :: indices, after)

/-- An index path, its length in front. -/
def readPath (bytes : Bytes) : Except FramingError (List Int × Bytes) :=
  match readIndex bytes with
  | .error error => .error error
  | .ok (count, rest) =>
    if count < 0 ∨ maxIndexCount < count then .error (.invalidCount count)
    else if count = 0 then .ok ([0], rest)
    else readIndices count.toNat rest

/-- The frame that bytes are.  A wrong first byte is reported even if too few bytes
follow it. -/
def decode (bytes : Bytes) : Except FramingError Frame :=
  match bytes with
  | [] => .error (.endOfInput .header)
  | first :: rest =>
    if first ≠ magic then .error (.wrongMagic first)
    else
      match Bytes.splitAt? 4 rest with
      | none => .error (.endOfInput .header)
      | some (identifier, rest) =>
        match readPath rest with
        | .error error => .error error
        | .ok (index, payload) => .ok ⟨.ofNat (Bytes.ofBigEndian identifier), index, payload⟩

/-- An index path with its length in front. -/
def encodePath (index : List Int) : Bytes :=
  let written := if index = [0] then [] else index
  Wire.Varint.encode (Wire.ZigZag.encode written.length) ++
    written.flatMap fun i => Wire.Varint.encode (Wire.ZigZag.encode i)

/-- The bytes of a frame. -/
def encode (frame : Frame) : Bytes :=
  magic :: Bytes.bigEndian 4 frame.schemaId.toNat ++ encodePath frame.index ++ frame.payload

end Frame
end SchemaRecords.Stream
