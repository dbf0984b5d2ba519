/-!
# Byte strings

Every binary layout of this library is a list of octets read from its front.  A
reader therefore takes the bytes that are left and returns a value together with
the bytes that are left after it; no reader keeps a position, and "what was
consumed" is always the difference of two suffixes.

This module fixes that representation and holds the fixed-width words in both
byte orders.  Schema identifiers and value lengths are big-endian; the fixed
values of the wire format are little-endian.
-/

-- Powers of numbers are those of the core library, also where Mathlib offers another instance.
attribute [instance (20000), default_instance (20000)] instPowNat

namespace SchemaRecords

/-- A string of octets, first octet first. -/
abbrev Bytes := List UInt8

namespace Bytes

/-- The natural number whose base-256 digits are `bytes`, most significant
first. -/
def ofBigEndian (bytes : Bytes) : Nat :=
  bytes.foldl (fun value byte => value * 256 + byte.toNat) 0

/-- The natural number whose base-256 digits are `bytes`, least significant
first. -/
def ofLittleEndian : Bytes → Nat
  | [] => 0
  | byte :: rest => byte.toNat + 256 * ofLittleEndian rest

/-- The lowest `width` base-256 digits of `value`, least significant first. -/
def littleEndian : (width : Nat) → (value : Nat) → Bytes
  | 0, _ => []
  | width + 1, value => UInt8.ofNat value :: littleEndian width (value / 256)

/-- The lowest `width` base-256 digits of `value`, most significant first. -/
def bigEndian (width value : Nat) : Bytes :=
  (littleEndian width value).reverse

/-- The first `count` bytes and the rest, or nothing when fewer are left. -/
def splitAt? (count : Nat) (bytes : Bytes) : Option (Bytes × Bytes) :=
  if count ≤ bytes.length then some (bytes.take count, bytes.drop count) else none

theorem splitAt?_eq_some_iff {count : Nat} {bytes front rest : Bytes} :
    bytes.splitAt? count = some (front, rest) ↔ bytes = front ++ rest ∧ front.length = count := by
  unfold splitAt?
  constructor
  · intro parts
    split at parts
    · rename_i enough
      cases parts
      exact ⟨(List.take_append_drop count bytes).symm, List.length_take_of_le enough⟩
    · cases parts
  · rintro ⟨rfl, rfl⟩
    rw [if_pos (by rw [List.length_append]; exact Nat.le_add_right _ _), List.take_left,
      List.drop_left]

theorem splitAt?_append (front rest : Bytes) :
    splitAt? front.length (front ++ rest) = some (front, rest) :=
  splitAt?_eq_some_iff.mpr ⟨rfl, rfl⟩

theorem splitAt?_of_lt {count : Nat} {bytes : Bytes} (few : bytes.length < count) :
    bytes.splitAt? count = none :=
  if_neg (Nat.not_le_of_lt few)

end Bytes
end SchemaRecords
