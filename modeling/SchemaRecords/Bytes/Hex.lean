import SchemaRecords.Bytes
import SchemaRecords.Text.Quoted

/-!
# Hexadecimal text

Two digits stand for one byte, the high half first.  Both cases of the letters
are read; lower case is written.

A text of odd length is refused before its digits are looked at.  Otherwise the
first character that is no digit is the fault.  Offsets count the bytes of the
text, so a character outside ASCII is reported by its first byte.
-/

namespace SchemaRecords.Bytes.Hex

/-- Why a text is not a sequence of digit pairs. -/
inductive Fault where
  | oddLength
  | notADigit (byte : UInt8) (offset : Nat)
  deriving DecidableEq, Repr

/-- The explanation of a fault.  A byte is shown as the character with its number. -/
def Fault.message : Fault → String
  | .oddLength => "Odd number of digits"
  | .notADigit byte offset =>
    "Invalid character " ++ Text.quoteChar (Char.ofNat byte.toNat) ++ s!" at position {offset}"

/-- The digit of a value below sixteen, in lower case. -/
def digit (value : Nat) : Char :=
  if value < 10 then Char.ofNat (48 + value) else Char.ofNat (87 + value)

/-- The value of a hexadecimal digit of either case. -/
def digitValue? (byte : UInt8) : Option Nat :=
  if 48 ≤ byte ∧ byte ≤ 57 then some (byte.toNat - 48)
  else if 97 ≤ byte ∧ byte ≤ 102 then some (byte.toNat - 87)
  else if 65 ≤ byte ∧ byte ≤ 70 then some (byte.toNat - 55)
  else none

/-- The digit pairs of `bytes`. -/
def encode (bytes : Bytes) : List Char :=
  bytes.flatMap fun byte => [digit (byte.toNat / 16), digit (byte.toNat % 16)]

/-- The digit at `offset` as a number. -/
def readDigit (byte : UInt8) (offset : Nat) : Except Fault Nat :=
  match digitValue? byte with
  | some value => .ok value
  | none => .error (.notADigit byte offset)

/-- Read digit pairs from `offset` on. -/
def decodePairs (offset : Nat) : Bytes → Except Fault Bytes
  | [] => .ok []
  | [_] => .error .oddLength
  | high :: low :: rest => do
    let highValue ← readDigit high offset
    let lowValue ← readDigit low (offset + 1)
    let bytes ← decodePairs (offset + 2) rest
    return UInt8.ofNat (highValue * 16 + lowValue) :: bytes

/-- The bytes that a text of digit pairs stands for. -/
def decode (text : Bytes) : Except Fault Bytes :=
  if text.length % 2 = 1 then .error .oddLength else decodePairs 0 text

end SchemaRecords.Bytes.Hex
