import SchemaRecords.Bytes
import SchemaRecords.Wire.Fault

/-!
# Variable-length numbers

A number is written in digits of base 128, least significant first, with the high
bit set on every byte but the last.  A written number never has superfluous digits,
but a reader accepts them as long as the number keeps within a bound on its bytes.

Reading is the inverse of writing in front of any bytes, `read_encode`, and always
makes progress, `length_of_read`.  A word of 64 bits can also be pushed onto a buffer
digit by digit, which appends the same bytes, `push_eq`.
-/

namespace SchemaRecords.Wire

namespace Varint

/-- The shortest sequence of digits for a number. -/
def encode (value : Nat) : Bytes :=
  if value < 128 then [UInt8.ofNat value]
  else UInt8.ofNat (value % 128 + 128) :: encode (value / 128)
termination_by value
decreasing_by omega

theorem toNat_shiftRight_seven (word : UInt64) : (word >>> 7).toNat = word.toNat / 128 := by
  rw [UInt64.toNat_shiftRight]
  exact Nat.shiftRight_eq_div_pow _ 7

/-- Append the digits of a word to a buffer, its lowest seven bits first. -/
def push (buffer : Bytes) (word : UInt64) : Bytes :=
  if word < 0x80 then buffer ++ [word.toUInt8]
  else push (buffer ++ [word.toUInt8 &&& 0x7f ||| 0x80]) (word >>> 7)
termination_by word.toNat
decreasing_by
  rename_i more
  have least : 128 ≤ word.toNat := UInt64.le_iff_toNat_le.mp (UInt64.not_lt.mp more)
  rw [toNat_shiftRight_seven]
  omega

/-- How long the digits of a number may become: at most `size` bytes, of which the
last possible one is at most `top`. -/
structure Bound where
  size : Nat
  top : Nat
  deriving DecidableEq, Repr

/-- The digits of a number below 2^64. -/
def Bound.long : Bound := ⟨10, 1⟩

/-- The digits of a number below 2^32. -/
def Bound.short : Bound := ⟨5, 15⟩

/-- Read at most `size` digits, the last possible one no greater than `top`. -/
def readDigits (top : Nat) : (size : Nat) → Bytes → Except Fault (Nat × Bytes)
  | 0, _ => .error .overlongVarint
  | _ + 1, [] => .error .endOfInput
  | 1, byte :: rest =>
    if byte.toNat ≤ top then .ok (byte.toNat, rest) else .error .overlongVarint
  | size + 2, byte :: rest =>
    if byte.toNat < 128 then .ok (byte.toNat, rest)
    else
      match readDigits top (size + 1) rest with
      | .ok (value, after) => .ok (byte.toNat - 128 + 128 * value, after)
      | .error fault => .error fault

/-- The number at the front and the bytes after it. -/
def read (bound : Bound) (bytes : Bytes) : Except Fault (Nat × Bytes) :=
  readDigits bound.top bound.size bytes

theorem encode_ne_nil (value : Nat) : encode value ≠ [] := by
  rw [encode]
  split <;> simp

/-- The lowest seven bits of a word with the high bit of the byte set. -/
theorem digit_more (word : UInt64) :
    word.toUInt8 &&& 0x7f ||| 0x80 = UInt8.ofNat (word.toNat % 128 + 128) := by
  have each : ∀ value < 256,
      UInt8.ofNat value &&& 0x7f ||| 0x80 = UInt8.ofNat (value % 128 + 128) := by decide +kernel
  have low : word.toUInt8 = UInt8.ofNat (word.toNat % 256) := by
    apply UInt8.toNat.inj
    rw [UInt64.toNat_toUInt8, UInt8.toNat_ofNat', Nat.mod_mod]
  have same : word.toNat % 256 % 128 = word.toNat % 128 := by omega
  rw [low, each _ (Nat.mod_lt _ (by decide)), same]

/-- What is pushed are the shortest digits.  By induction on the digits that are still to come. -/
theorem push_eq (buffer : Bytes) (word : UInt64) : push buffer word = buffer ++ encode word.toNat := by
  fun_induction push buffer word with
  | case1 buffer word last =>
    have small : word.toNat < 128 := UInt64.lt_iff_toNat_lt.mp last
    rw [encode, if_pos small]
    rfl
  | case2 buffer word more inductionHypothesis =>
    have large : ¬ word.toNat < 128 := fun small => more (UInt64.lt_iff_toNat_lt.mpr small)
    rw [inductionHypothesis, toNat_shiftRight_seven, digit_more, encode.eq_def word.toNat,
      if_neg large, List.append_assoc, List.singleton_append]

/-- Digits that leave room in the bound are read back, whatever follows them. -/
theorem readDigits_encode (top size value : Nat) (rest : Bytes) (small : top < 128)
    (fits : value < (top + 1) * 128 ^ size) :
    readDigits top (size + 1) (encode value ++ rest) = .ok (value, rest) := by
  induction size generalizing value with
  | zero =>
    have below : value ≤ top := by omega
    rw [encode, if_pos (by omega)]
    simp only [List.cons_append, List.nil_append, readDigits,
      UInt8.toNat_ofNat_of_lt' (show value < 256 by omega), if_pos below]
  | succ size hypothesis =>
    rw [encode]
    split
    · rename_i last
      simp only [List.cons_append, List.nil_append, readDigits,
        UInt8.toNat_ofNat_of_lt' (show value < 256 by omega), if_pos last]
    · rename_i more
      have digit := UInt8.toNat_ofNat_of_lt' (show value % 128 + 128 < 256 by omega)
      have quotient : value / 128 < (top + 1) * 128 ^ size := by
        rw [Nat.div_lt_iff_lt_mul (by decide), Nat.mul_assoc, ← Nat.pow_succ]
        exact fits
      simp only [List.cons_append, readDigits, digit, hypothesis _ quotient,
        if_neg (show ¬ value % 128 + 128 < 128 by omega)]
      congr 2
      omega

/-- What was written is read back, whatever follows it. -/
theorem read_encode (value : Nat) (rest : Bytes) (fits : value < 2 ^ 64) :
    read .long (encode value ++ rest) = .ok (value, rest) :=
  readDigits_encode 1 9 value rest (by decide) fits

theorem length_of_readDigits {top size value : Nat} {bytes rest : Bytes}
    (h : readDigits top size bytes = .ok (value, rest)) : rest.length < bytes.length := by
  fun_induction readDigits top size bytes generalizing value rest with
  | case1 => cases h
  | case2 => cases h
  | case3 => cases h; simp
  | case4 => cases h
  | case5 => cases h; simp
  | case6 size byte tail _ inner after recursive hypothesis =>
    cases h
    have := hypothesis recursive
    simp only [List.length_cons]
    omega
  | case7 => cases h

/-- A reader consumes at least one byte. -/
theorem length_of_read {bound : Bound} {value : Nat} {bytes rest : Bytes}
    (h : read bound bytes = .ok (value, rest)) : rest.length < bytes.length :=
  length_of_readDigits h

end Varint
end SchemaRecords.Wire
