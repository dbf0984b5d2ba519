/-!
# Alternating codes of signed integers

Integers are numbered 0, -1, 1, -2, 2 and so on, so that a small magnitude gets a
small code whatever its sign.  The numbering is the same for every width.
-/

namespace SchemaRecords.Wire.ZigZag

/-- The code of an integer. -/
def encode (value : Int) : Nat :=
  if value < 0 then 2 * value.natAbs - 1 else 2 * value.natAbs

/-- The integer of a code. -/
def decode (code : Nat) : Int :=
  if code % 2 = 0 then (code / 2 : Nat) else -((code / 2 : Nat) : Int) - 1

theorem decode_encode (value : Int) : decode (encode value) = value := by
  unfold encode decode
  split <;> split <;> omega

theorem encode_decode (code : Nat) : encode (decode code) = code := by
  unfold encode decode
  split <;> split <;> omega

end SchemaRecords.Wire.ZigZag
