import SchemaRecords.Json.Value
import SchemaRecords.Number.Numeral
import SchemaRecords.Stream.Frame
import SchemaRecords.Text.Blank
import SchemaRecords.Text.Utf8

/-!
# Streams of records

A record is a line with its offset, a line with its key, the length of its value in
four bytes, and the value.  A stream ends cleanly where no length follows the lines,
whether or not the lines are there.
-/

namespace SchemaRecords.Stream

/-- A record of a stream. -/
structure Record where
  offset : String
  key : String
  value : Bytes
  deriving DecidableEq, Repr

/-- The byte that ends a line. -/
def lineFeed : UInt8 := 10

/-- The bytes up to the end of the line, and those behind it.  The last line need not
have an end. -/
def splitLine : Bytes → Bytes × Bytes
  | [] => ([], [])
  | byte :: rest =>
    if byte = lineFeed then ([], rest)
    else
      let (line, after) := splitLine rest
      (byte :: line, after)

theorem length_of_splitLine (bytes : Bytes) : (splitLine bytes).2.length ≤ bytes.length := by
  induction bytes with
  | nil => exact Nat.le_refl _
  | cons byte rest hypothesis =>
    rw [splitLine]
    split
    · simp
    · simp only [List.length_cons]
      omega

/-- A line as text and the bytes behind it. -/
def readLine (bytes : Bytes) : String × Bytes :=
  (Text.Utf8.decodeLossy (splitLine bytes).1, (splitLine bytes).2)

namespace Record

/-- The value of a record, its length in front; nothing if there is no length. -/
def readValue (bytes : Bytes) : Except FramingError (Option (Bytes × Bytes)) :=
  if bytes = [] then .ok none
  else
    match Bytes.splitAt? 4 bytes with
    | none => .error (.endOfInput .recordLength)
    | some (length, rest) =>
      match Bytes.splitAt? (Bytes.ofBigEndian length) rest with
      | none => .error (.endOfInput .recordValue)
      | some parts => .ok (some parts)

/-- The first record of a stream and the bytes behind it; nothing at its end. -/
def read (bytes : Bytes) : Except FramingError (Option (Record × Bytes)) :=
  let (offset, rest) := readLine bytes
  let (key, rest) := readLine rest
  match readValue rest with
  | .error error => .error error
  | .ok none => .ok none
  | .ok (some (value, after)) => .ok (some (⟨offset, key, value⟩, after))

/-- A record consumes at least the four bytes of its length. -/
theorem length_of_read {bytes rest : Bytes} {record : Record}
    (h : read bytes = .ok (some (record, rest))) : rest.length < bytes.length := by
  unfold read readLine at h
  dsimp only at h
  have first := length_of_splitLine bytes
  have second := length_of_splitLine (splitLine bytes).2
  split at h <;> cases h
  rename_i found
  unfold readValue at found
  split at found
  · cases found
  · split at found
    · cases found
    · rename_i length after cut
      split at found
      · cases found
      · rename_i parts inner
        cases found
        rcases Bytes.splitAt?_eq_some_iff.mp cut with ⟨behindKey, four⟩
        rcases Bytes.splitAt?_eq_some_iff.mp inner with ⟨behindLength, -⟩
        have parts := congrArg List.length behindKey
        rw [behindLength, List.length_append, List.length_append] at parts
        omega

/-- The bytes of a record. -/
def encode (record : Record) : Bytes :=
  Text.Utf8.encode record.offset ++ lineFeed :: Text.Utf8.encode record.key ++
    lineFeed :: Bytes.bigEndian 4 record.value.length ++ record.value

/-- The records of a stream, up to the first bytes that are none. -/
def readAll (bytes : Bytes) : List Record × Option FramingError :=
  match step : read bytes with
  | .error error => ([], some error)
  | .ok none => ([], none)
  | .ok (some (record, rest)) =>
    have := length_of_read step
    let (records, error) := readAll rest
    (record :: records, error)
termination_by bytes.length

/-- The offset in a document: a number if its text is a numeral of 64 bits. -/
def offsetValue (record : Record) : Json.Value :=
  match Number.Numeral.readInt (2 ^ 63 - 1) (Text.trim record.offset.toList) with
  | .ok n => .int n
  | .error _ => .string record.offset

/-- The document of a record: its offset and key, and then the members of what its
value decodes to. -/
def document (record : Record) (decoded : Json.Value) : Json.Value :=
  let own : Json.Members := [("@offset", record.offsetValue), ("@key", .string record.key)]
  match decoded with
  | .object members => .object (own.insertAll members)
  | _ => .object own

end Record
end SchemaRecords.Stream
