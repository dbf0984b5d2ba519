import SchemaRecords.Text.Utf8

/-!
# Written text

A text is read back from its bytes by the lenient reading too: no byte of it has to be replaced.
The reading goes through a character byte by byte, and the range in which it wants the second byte
is what keeps overlong forms and surrogates out, so these ranges have to be met.
-/

namespace SchemaRecords.Text.Utf8

theorem encode_eq (text : String) : encode text = text.toList.flatMap encodeChar := by
  unfold encode encodeChar
  rw [← String.utf8Encode_toList]
  simp [List.utf8Encode]

/-! ## The first byte of a character -/

theorem start_one {byte : UInt8} (small : byte.toNat < 0x80) :
    start byte = ([Char.ofNat byte.toNat], none) := by
  have first : byte < 0x80 := small
  rw [start, if_pos first]

theorem start_two {byte : UInt8} (low : 0xC2 ≤ byte.toNat) (high : byte.toNat < 0xE0) :
    start byte = ([], some ⟨1, 0x80, 0xBF, byte.toNat % 32⟩) := by
  simp only [start, UInt8.lt_iff_toNat_lt, UInt8.reduceToNat]
  rw [if_neg (by omega), if_neg (by omega), if_pos high]

/-- The least and the greatest second byte depend on the first one. -/
theorem start_three {byte : UInt8} (low : 0xE0 ≤ byte.toNat) (high : byte.toNat < 0xF0) :
    start byte = ([], some ⟨2, if byte.toNat = 0xE0 then 0xA0 else 0x80,
      if byte.toNat = 0xED then 0x9F else 0xBF, byte.toNat % 16⟩) := by
  simp only [start, UInt8.lt_iff_toNat_lt, ← UInt8.toNat_inj, UInt8.reduceToNat]
  rw [if_neg (by omega), if_neg (by omega), if_neg (by omega)]
  by_cases least : byte.toNat = 0xE0
  · simp [least]
  · by_cases surrogate : byte.toNat = 0xED
    · simp [surrogate]
    · simp [least, surrogate, high]

theorem start_four {byte : UInt8} (low : 0xF0 ≤ byte.toNat) (high : byte.toNat ≤ 0xF4) :
    start byte = ([], some ⟨3, if byte.toNat = 0xF0 then 0x90 else 0x80,
      if byte.toNat = 0xF4 then 0x8F else 0xBF, byte.toNat % 8⟩) := by
  simp only [start, UInt8.lt_iff_toNat_lt, ← UInt8.toNat_inj, UInt8.reduceToNat]
  rw [if_neg (by omega), if_neg (by omega), if_neg (by omega), if_neg (by omega),
    if_neg (by omega), if_neg (by omega)]
  by_cases least : byte.toNat = 0xF0
  · simp [least]
  · by_cases greatest : byte.toNat = 0xF4
    · simp [greatest]
    · have between : byte.toNat < 0xF4 := by omega
      simp [least, greatest, between]

/-! ## The bytes after it -/

/-- A byte in the range that is wanted takes the character one step further. -/
theorem decodeLossyFrom_more {pending : Pending} {byte : UInt8} (more : 1 < pending.owed)
    (low : pending.least.toNat ≤ byte.toNat) (high : byte.toNat ≤ pending.greatest.toNat)
    (rest : Bytes) :
    decodeLossyFrom (some pending) (byte :: rest) =
      decodeLossyFrom (some ⟨pending.owed - 1, 0x80, 0xBF, pending.value * 64 + byte.toNat % 64⟩)
        rest := by
  have within : pending.least ≤ byte ∧ byte ≤ pending.greatest := ⟨low, high⟩
  simp only [decodeLossyFrom, Pending.next, if_pos within, if_neg (Nat.not_le.mpr more),
    List.nil_append]

/-- The last byte in the range that is wanted completes the character. -/
theorem decodeLossyFrom_last {pending : Pending} {byte : UInt8} (last : pending.owed ≤ 1)
    (low : pending.least.toNat ≤ byte.toNat) (high : byte.toNat ≤ pending.greatest.toNat)
    (rest : Bytes) :
    decodeLossyFrom (some pending) (byte :: rest) =
      Char.ofNat (pending.value * 64 + byte.toNat % 64) :: decodeLossyFrom none rest := by
  have within : pending.least ≤ byte ∧ byte ≤ pending.greatest := ⟨low, high⟩
  simp only [decodeLossyFrom, Pending.next, if_pos within, if_pos last, List.cons_append,
    List.nil_append]

/-! ## Whole characters -/

section Codes

variable {code : Nat}

theorem decodeLossyFrom_two (low : 0x7F < code) (high : code ≤ 0x7FF) (rest : Bytes) :
    decodeLossyFrom none
        (UInt8.ofNat (code / 64 % 32 + 0xC0) :: UInt8.ofNat (code % 64 + 0x80) :: rest) =
      Char.ofNat code :: decodeLossyFrom none rest := by
  have first := UInt8.toNat_ofNat_of_lt' (show code / 64 % 32 + 0xC0 < 256 by omega)
  have second := UInt8.toNat_ofNat_of_lt' (show code % 64 + 0x80 < 256 by omega)
  have whole : (code / 64 % 32 + 0xC0) % 32 * 64 + (code % 64 + 0x80) % 64 = code := by omega
  rw [decodeLossyFrom, start_two (by omega) (by omega)]
  simp only [List.nil_append]
  rw [decodeLossyFrom_last (Nat.le_refl 1) (by simp only [second, UInt8.reduceToNat]; omega)
    (by simp only [second, UInt8.reduceToNat]; omega)]
  simp only [first, second, whole]

theorem decodeLossyFrom_three (low : 0x7FF < code) (high : code ≤ 0xFFFF)
    (legal : code < 0xD800 ∨ 0xDFFF < code) (rest : Bytes) :
    decodeLossyFrom none (UInt8.ofNat (code / 4096 % 16 + 0xE0) ::
        UInt8.ofNat (code / 64 % 64 + 0x80) :: UInt8.ofNat (code % 64 + 0x80) :: rest) =
      Char.ofNat code :: decodeLossyFrom none rest := by
  have first := UInt8.toNat_ofNat_of_lt' (show code / 4096 % 16 + 0xE0 < 256 by omega)
  have second := UInt8.toNat_ofNat_of_lt' (show code / 64 % 64 + 0x80 < 256 by omega)
  have third := UInt8.toNat_ofNat_of_lt' (show code % 64 + 0x80 < 256 by omega)
  have whole : ((code / 4096 % 16 + 0xE0) % 16 * 64 + (code / 64 % 64 + 0x80) % 64) * 64 +
      (code % 64 + 0x80) % 64 = code := by omega
  -- A form of three bytes is not overlong, and it is not a surrogate.
  have above : (if code / 4096 % 16 + 0xE0 = 0xE0 then 0xA0 else 0x80 : UInt8).toNat ≤
      code / 64 % 64 + 0x80 := by
    split <;> simp only [UInt8.reduceToNat] <;> omega
  have below : code / 64 % 64 + 0x80 ≤
      (if code / 4096 % 16 + 0xE0 = 0xED then 0x9F else 0xBF : UInt8).toNat := by
    split <;> simp only [UInt8.reduceToNat] <;> omega
  rw [decodeLossyFrom, start_three (by omega) (by omega), first]
  simp only [List.nil_append]
  rw [decodeLossyFrom_more (show 1 < 2 by decide) (by rwa [second]) (by rwa [second]),
    decodeLossyFrom_last (Nat.le_refl 1) (by simp only [third, UInt8.reduceToNat]; omega)
      (by simp only [third, UInt8.reduceToNat]; omega)]
  simp only [second, third, whole]

theorem decodeLossyFrom_four (low : 0xFFFF < code) (high : code < 0x110000) (rest : Bytes) :
    decodeLossyFrom none (UInt8.ofNat (code / 262144 % 8 + 0xF0) ::
        UInt8.ofNat (code / 4096 % 64 + 0x80) :: UInt8.ofNat (code / 64 % 64 + 0x80) ::
        UInt8.ofNat (code % 64 + 0x80) :: rest) =
      Char.ofNat code :: decodeLossyFrom none rest := by
  have first := UInt8.toNat_ofNat_of_lt' (show code / 262144 % 8 + 0xF0 < 256 by omega)
  have second := UInt8.toNat_ofNat_of_lt' (show code / 4096 % 64 + 0x80 < 256 by omega)
  have third := UInt8.toNat_ofNat_of_lt' (show code / 64 % 64 + 0x80 < 256 by omega)
  have fourth := UInt8.toNat_ofNat_of_lt' (show code % 64 + 0x80 < 256 by omega)
  have whole : (((code / 262144 % 8 + 0xF0) % 8 * 64 + (code / 4096 % 64 + 0x80) % 64) * 64 +
      (code / 64 % 64 + 0x80) % 64) * 64 + (code % 64 + 0x80) % 64 = code := by omega
  -- A form of four bytes is not overlong, and it does not go past the last character.
  have above : (if code / 262144 % 8 + 0xF0 = 0xF0 then 0x90 else 0x80 : UInt8).toNat ≤
      code / 4096 % 64 + 0x80 := by
    split <;> simp only [UInt8.reduceToNat] <;> omega
  have below : code / 4096 % 64 + 0x80 ≤
      (if code / 262144 % 8 + 0xF0 = 0xF4 then 0x8F else 0xBF : UInt8).toNat := by
    split <;> simp only [UInt8.reduceToNat] <;> omega
  rw [decodeLossyFrom, start_four (by omega) (by omega), first]
  simp only [List.nil_append]
  rw [decodeLossyFrom_more (show 1 < 3 by decide) (by rwa [second]) (by rwa [second]),
    decodeLossyFrom_more (show 1 < 2 by decide)
      (by simp only [third, UInt8.reduceToNat]; omega)
      (by simp only [third, UInt8.reduceToNat]; omega),
    decodeLossyFrom_last (show 1 ≤ 1 by decide) (by simp only [fourth, UInt8.reduceToNat]; omega)
      (by simp only [fourth, UInt8.reduceToNat]; omega)]
  simp only [second, third, fourth, whole]

end Codes

theorem decodeLossyFrom_encodeChar (c : Char) (rest : Bytes) :
    decodeLossyFrom none (encodeChar c ++ rest) = c :: decodeLossyFrom none rest := by
  have isCode : Char.ofNat c.val.toNat = c := Char.ofNat_toNat c
  have legal : c.val.toNat < 0xD800 ∨ 0xDFFF < c.val.toNat ∧ c.val.toNat < 0x110000 := c.valid
  unfold encodeChar String.utf8EncodeChar
  generalize c.val.toNat = code at isCode legal
  dsimp only
  split
  · have first := UInt8.toNat_ofNat_of_lt' (show code < 256 by omega)
    rw [List.cons_append, List.nil_append, decodeLossyFrom, start_one (by omega), first, isCode]
    rfl
  · split
    · simp only [List.cons_append, List.nil_append]
      rw [decodeLossyFrom_two (by omega) (by omega), isCode]
    · split
      · simp only [List.cons_append, List.nil_append]
        rw [decodeLossyFrom_three (by omega) (by omega) (by omega), isCode]
      · simp only [List.cons_append, List.nil_append]
        rw [decodeLossyFrom_four (by omega) (by omega), isCode]

/-! ## Whole texts -/

/-- The lenient reading replaces nothing in a text. -/
theorem decodeLossy_encode (text : String) : decodeLossy (encode text) = text := by
  have all : ∀ chars : List Char, decodeLossyFrom none (chars.flatMap encodeChar) = chars := by
    intro chars
    induction chars with
    | nil => rfl
    | cons c chars inductionHypothesis =>
      rw [List.flatMap_cons, decodeLossyFrom_encodeChar, inductionHypothesis]
  rw [decodeLossy, encode_eq, all, String.ofList_toList]

/-- A byte below 128 stands in a text only as the character with this code. -/
theorem mem_encode {text : String} {byte : UInt8} (small : byte.toNat < 128)
    (member : byte ∈ encode text) : Char.ofNat byte.toNat ∈ text.toList := by
  rw [encode_eq] at member
  rcases List.mem_flatMap.mp member with ⟨c, listed, among⟩
  have isCode : Char.ofNat c.val.toNat = c := Char.ofNat_toNat c
  unfold encodeChar String.utf8EncodeChar at among
  dsimp only at among
  generalize c.val.toNat = code at isCode among
  split at among
  · rename_i one
    have same : byte.toNat = code := by
      rw [List.mem_singleton.mp among]
      simp
      omega
    rw [same, isCode]
    exact listed
  · -- Every byte of a longer form is at least 128.
    have large : 128 ≤ byte.toNat := by
      split at among
      · simp only [List.mem_cons, List.not_mem_nil, or_false] at among
        rcases among with same | same <;> rw [same] <;> simp <;> omega
      · split at among
        · simp only [List.mem_cons, List.not_mem_nil, or_false] at among
          rcases among with same | same | same <;> rw [same] <;> simp <;> omega
        · simp only [List.mem_cons, List.not_mem_nil, or_false] at among
          rcases among with same | same | same | same <;> rw [same] <;> simp <;> omega
    omega

end SchemaRecords.Text.Utf8
