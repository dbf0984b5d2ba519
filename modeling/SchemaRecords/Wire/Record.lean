import SchemaRecords.Wire.Tag

/-!
# Records of a payload

The binary form of a message is a sequence of records.  A record is a tag and a
value laid out as the tag says; the records between a start tag and the matching end
tag form a group.  None of this depends on a schema, so a payload is first taken
apart into its records and then interpreted.

`Record.split` keeps the records in front of a fault, because a record that cannot
be interpreted is reported before a later one that cannot be read.
-/

namespace SchemaRecords.Wire

/-- A single value. -/
inductive Value where
  | varint (word : UInt64)
  | fixed64 (word : UInt64)
  | fixed32 (word : UInt32)
  | delimited (content : Bytes)
  deriving DecidableEq, Repr

/-- A fixed-width word and the bytes after it. -/
def readFixed (width : Nat) (bytes : Bytes) : Except Fault (Nat × Bytes) :=
  match bytes.splitAt? width with
  | some (word, rest) => .ok (Bytes.ofLittleEndian word, rest)
  | none => .error .endOfInput

/-- The content that a length announces and the bytes after it.  As many bytes as the length says
have to be there, but only the low 32 bits of it count how many are taken. -/
def readContent (length : Nat) (bytes : Bytes) : Except Fault (Bytes × Bytes) :=
  if length ≤ bytes.length then .ok (bytes.splitAt (length % 2 ^ 32))
  else .error (.lengthOutOfBounds length bytes.length)

/-- A length, the content that it announces, and the bytes after them. -/
def readDelimited (bytes : Bytes) : Except Fault (Bytes × Bytes) :=
  match Varint.read .long bytes with
  | .error fault => .error fault
  | .ok (length, rest) => readContent length rest

theorem readContent_eq_ok_iff {length : Nat} {bytes content rest : Bytes} :
    readContent length bytes = .ok (content, rest) ↔
      bytes = content ++ rest ∧ length ≤ bytes.length ∧ content.length = length % 2 ^ 32 := by
  have less := Nat.mod_le length (2 ^ 32)
  unfold readContent
  rw [List.splitAt_eq]
  constructor
  · intro done
    split at done
    · rename_i inside
      cases done
      exact ⟨(List.take_append_drop _ _).symm, inside,
        List.length_take_of_le (Nat.le_trans less inside)⟩
    · cases done
  · rintro ⟨rfl, inside, taken⟩
    rw [if_pos inside, ← taken, List.take_left, List.drop_left]

/-- A content of less than 2^32 bytes is taken as it is. -/
theorem readContent_append {content : Bytes} (short : content.length < 2 ^ 32) (rest : Bytes) :
    readContent content.length (content ++ rest) = .ok (content, rest) := by
  refine readContent_eq_ok_iff.mpr ⟨rfl, ?_, (Nat.mod_eq_of_lt short).symm⟩
  rw [List.length_append]
  exact Nat.le_add_right _ _

theorem readDelimited_eq_ok_iff {bytes content rest : Bytes} :
    readDelimited bytes = .ok (content, rest) ↔
      ∃ length, Varint.read .long bytes = .ok (length, content ++ rest) ∧
        length ≤ (content ++ rest).length ∧ content.length = length % 2 ^ 32 := by
  unfold readDelimited
  constructor
  · intro done
    split at done
    · cases done
    · rename_i length after number
      rcases readContent_eq_ok_iff.mp done with ⟨rfl, inside, taken⟩
      exact ⟨length, number, inside, taken⟩
  · rintro ⟨length, number, inside, taken⟩
    rw [number]
    exact readContent_eq_ok_iff.mpr ⟨rfl, inside, taken⟩

theorem length_of_readFixed {width value : Nat} {bytes rest : Bytes}
    (h : readFixed width bytes = .ok (value, rest)) : bytes.length = width + rest.length := by
  unfold readFixed at h
  split at h
  · rename_i word after parts
    cases h
    rcases Bytes.splitAt?_eq_some_iff.mp parts with ⟨rfl, rfl⟩
    exact List.length_append
  · cases h

theorem length_of_readDelimited {content bytes rest : Bytes}
    (h : readDelimited bytes = .ok (content, rest)) : rest.length < bytes.length := by
  rcases readDelimited_eq_ok_iff.mp h with ⟨length, number, -⟩
  have shorter := Varint.length_of_read number
  rw [List.length_append] at shorter
  omega

namespace Value

/-- How a value is laid out. -/
def layout : Value → Layout
  | .varint _ => .varint
  | .fixed64 _ => .fixed64
  | .fixed32 _ => .fixed32
  | .delimited _ => .delimited

/-- The bytes of a value, without its tag. -/
def encode : Value → Bytes
  | .varint word => Varint.encode word.toNat
  | .fixed64 word => Bytes.littleEndian 8 word.toNat
  | .fixed32 word => Bytes.littleEndian 4 word.toNat
  | .delimited content => Varint.encode content.length ++ content

/-- The value at the front and the bytes after it. -/
def read : Layout → Bytes → Except Fault (Value × Bytes)
  | .varint, bytes =>
    match Varint.read .long bytes with
    | .ok (word, rest) => .ok (.varint (.ofNat word), rest)
    | .error fault => .error fault
  | .fixed64, bytes =>
    match readFixed 8 bytes with
    | .ok (word, rest) => .ok (.fixed64 (.ofNat word), rest)
    | .error fault => .error fault
  | .fixed32, bytes =>
    match readFixed 4 bytes with
    | .ok (word, rest) => .ok (.fixed32 (.ofNat word), rest)
    | .error fault => .error fault
  | .delimited, bytes =>
    match readDelimited bytes with
    | .ok (content, rest) => .ok (.delimited content, rest)
    | .error fault => .error fault

/-- A value consumes at least one byte. -/
theorem length_of_read {layout : Layout} {value : Value} {bytes rest : Bytes}
    (h : read layout bytes = .ok (value, rest)) : rest.length < bytes.length := by
  cases layout with
  | varint =>
    simp only [read] at h
    split at h <;> cases h
    exact Varint.length_of_read ‹_›
  | fixed64 =>
    simp only [read] at h
    split at h <;> cases h
    have := length_of_readFixed ‹_›
    omega
  | delimited =>
    simp only [read] at h
    split at h <;> cases h
    exact length_of_readDelimited ‹_›
  | fixed32 =>
    simp only [read] at h
    split at h <;> cases h
    have := length_of_readFixed ‹_›
    omega

/-- The values of one layout that fill a block. -/
def readAll (layout : Layout) (bytes : Bytes) : Except Fault (List Value) :=
  match bytes with
  | [] => .ok []
  | first :: others =>
    match step : read layout (first :: others) with
    | .error fault => .error fault
    | .ok (value, rest) =>
      have := length_of_read step
      match readAll layout rest with
      | .error fault => .error fault
      | .ok values => .ok (value :: values)
termination_by bytes.length
decreasing_by assumption

end Value

/-- The bytes after the groups that are open, the innermost first. -/
def closeGroups (unclosed : List Nat) (bytes : Bytes) : Except Fault Bytes :=
  match unclosed with
  | [] => .ok bytes
  | number :: outer =>
    match step : Tag.read bytes with
    | .error fault => .error fault
    | .ok (tag, rest) =>
      have := Tag.length_of_read step
      match tag.kind with
      | .startGroup =>
        if unclosed.length < groupLimit then closeGroups (tag.number :: unclosed) rest
        else .error .groupTooDeep
      | .endGroup =>
        if tag.number = number then closeGroups outer rest
        else .error (.unmatchedEnd tag.number)
      | .value layout =>
        match content : Value.read layout rest with
        | .error fault => .error fault
        | .ok (_, after) =>
          have := Value.length_of_read content
          closeGroups unclosed after
termination_by bytes.length

/-- A field number with a value, or with a group, whose content nothing here uses. -/
structure Record where
  number : Nat
  value : Option Value
  deriving DecidableEq, Repr

namespace Record

/-- The value, or the group, that a tag announces and the bytes after it. -/
def readValue (tag : Tag) (bytes : Bytes) : Except Fault (Option Value × Bytes) :=
  match tag.kind with
  | .value layout =>
    match Value.read layout bytes with
    | .ok (value, rest) => .ok (some value, rest)
    | .error fault => .error fault
  | .startGroup =>
    match closeGroups [tag.number] bytes with
    | .ok rest => .ok (none, rest)
    | .error fault => .error fault
  | .endGroup => .error (.unmatchedEnd tag.number)

/-- The record at the front and the bytes after it. -/
def read (bytes : Bytes) : Except Fault (Record × Bytes) :=
  match Tag.read bytes with
  | .error fault => .error fault
  | .ok (tag, rest) =>
    match readValue tag rest with
    | .error fault => .error fault
    | .ok (value, after) => .ok (⟨tag.number, value⟩, after)

/-- The bytes of a record with a value. -/
def encode (number : Nat) (value : Value) : Bytes :=
  Tag.encode ⟨number, .value value.layout⟩ ++ value.encode

end Record

theorem length_of_closeGroups {unclosed : List Nat} {bytes rest : Bytes}
    (h : closeGroups unclosed bytes = .ok rest) : rest.length ≤ bytes.length := by
  fun_induction closeGroups unclosed bytes with
  | case1 => cases h; exact Nat.le_refl _
  | case3 _ _ _ _ _ _ _ _ shallow hypothesis =>
    rw [if_pos shallow] at h
    have := hypothesis h
    omega
  | case4 _ _ _ _ _ _ _ _ deep =>
    rw [if_neg deep] at h
    cases h
  | case5 _ _ _ _ _ _ _ hypothesis =>
    have := hypothesis h
    omega
  | case8 _ _ _ _ _ _ _ _ _ _ _ _ _ hypothesis =>
    have := hypothesis h
    omega
  | _ => cases h

namespace Record

/-- A record consumes at least one byte. -/
theorem length_of_read {record : Record} {bytes rest : Bytes}
    (h : read bytes = .ok (record, rest)) : rest.length < bytes.length := by
  unfold read at h
  split at h
  · cases h
  · rename_i tag after front
    have shorter := Tag.length_of_read front
    split at h
    · cases h
    · rename_i value final back
      cases h
      unfold readValue at back
      split at back
      · split at back <;> cases back
        have := Value.length_of_read ‹_›
        omega
      · split at back <;> cases back
        have := length_of_closeGroups ‹_›
        omega
      · cases back

/-- The records of a payload, up to the first that cannot be read. -/
def split (bytes : Bytes) : List Record × Option Fault :=
  match bytes with
  | [] => ([], none)
  | first :: others =>
    match step : read (first :: others) with
    | .error fault => ([], some fault)
    | .ok (record, rest) =>
      have := length_of_read step
      let (records, fault) := split rest
      (record :: records, fault)
termination_by bytes.length
decreasing_by assumption

end Record
end SchemaRecords.Wire
