import SchemaRecords.Wire.Kind
import SchemaRecords.Wire.Varint

/-!
# Tags

A tag stands in front of every value.  It joins the number of a field and the kind
of the value into one number, which is written with at most 32 bits.  Field number
zero and the two unused kinds are refused, in this order.
-/

namespace SchemaRecords.Wire

/-- What stands in front of a value. -/
structure Tag where
  number : Nat
  kind : Kind
  deriving DecidableEq, Repr

namespace Tag

/-- The field number above the three bits of the kind. -/
def code (tag : Tag) : Nat := tag.number * 8 + tag.kind.code

/-- The tag that a code stands for. -/
def ofCode (code : Nat) : Except Fault Tag :=
  if code / 8 = 0 then .error (.zeroNumber code)
  else
    match Kind.ofCode? (code % 8) with
    | some kind => .ok ⟨code / 8, kind⟩
    | none => .error (.unknownKind (code / 8) (code % 8))

/-- The bytes of a tag, of whose code the lowest 32 bits are written. -/
def encode (tag : Tag) : Bytes := Varint.encode (tag.code % 2 ^ 32)

/-- The tag at the front and the bytes after it. -/
def read (bytes : Bytes) : Except Fault (Tag × Bytes) :=
  match Varint.read .short bytes with
  | .error fault => .error fault
  | .ok (code, rest) =>
    match ofCode code with
    | .error fault => .error fault
    | .ok tag => .ok (tag, rest)

theorem ofCode_code (tag : Tag) (positive : 0 < tag.number) : ofCode tag.code = .ok tag := by
  have small := tag.kind.code_lt
  have high : tag.code / 8 = tag.number := by unfold code; omega
  have low : tag.code % 8 = tag.kind.code := by unfold code; omega
  rw [ofCode, high, low, Kind.ofCode?_code, if_neg (by omega)]

/-- A tag consumes at least one byte. -/
theorem length_of_read {tag : Tag} {bytes rest : Bytes} (h : read bytes = .ok (tag, rest)) :
    rest.length < bytes.length := by
  unfold read at h
  split at h
  · cases h
  · rename_i code after number
    split at h
    · cases h
    · cases h
      exact Varint.length_of_read number

end Tag
end SchemaRecords.Wire
