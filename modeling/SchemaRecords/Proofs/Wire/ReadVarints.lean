import SchemaRecords.Proofs.Wire.SpelledValues

/-!
# Numbers as they are read

A reader accepts superfluous digits.  What it consumes is therefore not always what would be
written for the number, but anything else is longer, and the number keeps within the bound.
Written numbers are delimited by their own digits: none is the beginning of another.
-/

namespace SchemaRecords.Wire.Varint

theorem length_encode_of_lt {value : Nat} (small : value < 128) : (encode value).length = 1 := by
  rw [encode, if_pos small, List.length_singleton]

/-- A number of few digits is short. -/
theorem length_encode_le {value count : Nat} (small : value < 128 ^ (count + 1)) :
    (encode value).length ≤ count + 1 := by
  induction count generalizing value with
  | zero => exact Nat.le_of_eq (length_encode_of_lt small)
  | succ count inductionHypothesis =>
    rw [encode]
    split
    · exact Nat.le_add_left 1 _
    · have quotient : value / 128 < 128 ^ (count + 1) := by
        rw [Nat.div_lt_iff_lt_mul (by decide), ← Nat.pow_succ]
        exact small
      rw [List.length_cons]
      exact Nat.succ_le_succ (inductionHypothesis quotient)

/-! ## Numerals -/

variable {top size : Nat} {digits : Bytes}

theorem isNumeral_length_pos {bound : Bound} (numeral : IsNumeral bound digits) :
    0 < digits.length := by
  rcases numeral with ⟨front, last, rfl, -⟩
  rw [List.length_append, List.length_singleton]
  exact Nat.succ_pos _

/-- A numeral is what would be written for its number, or longer.  By induction on the digits that
may still come. -/
theorem eq_encode_or_longer (numeral : IsNumeral ⟨size, top⟩ digits) :
    digits = encode (total digits) ∨ (encode (total digits)).length < digits.length := by
  induction size generalizing digits with
  | zero =>
    rcases numeral with ⟨front, last, -, -, -, none, -⟩
    exact absurd none (Nat.not_lt_zero _)
  | succ size inductionHypothesis =>
    rcases isNumeral_cases numeral with
      ⟨byte, rfl, ends, -⟩ | ⟨byte, others, rfl, continues, numeral⟩
    · have only : total [byte] = byte.toNat := by
        simp only [total]
        omega
      rw [only, encode, if_pos ends, UInt8.ofNat_toNat]
      exact .inl rfl
    · have isByte := byte.toNat_lt
      by_cases superfluous : total others = 0
      · -- One digit would do, and there are at least two.
        have nonempty := isNumeral_length_pos numeral
        have small : total (byte :: others) < 128 := by
          simp only [total, superfluous]
          omega
        rw [length_encode_of_lt small, List.length_cons]
        exact .inr (by omega)
      · have large : ¬ total (byte :: others) < 128 := by
          simp only [total]
          omega
        have digit : total (byte :: others) % 128 + 128 = byte.toNat := by
          simp only [total]
          omega
        have quotient : total (byte :: others) / 128 = total others := by
          simp only [total]
          omega
        rw [encode, if_neg large, digit, quotient, UInt8.ofNat_toNat]
        rcases inductionHypothesis numeral with shortest | longer
        · exact .inl (congrArg (byte :: ·) shortest)
        · exact .inr (Nat.succ_lt_succ longer)

theorem total_lt (numeral : IsNumeral ⟨size + 1, top⟩ digits) (small : top < 128) :
    total digits < (top + 1) * 128 ^ size := by
  induction size generalizing digits with
  | zero =>
    rcases isNumeral_cases numeral with
      ⟨byte, rfl, -, isLast⟩ | ⟨byte, others, rfl, continues, front, last, -, -, -, none, -⟩
    · have bounded := isLast rfl
      simp only [total]
      omega
    · exact absurd none (Nat.not_lt_zero _)
  | succ size inductionHypothesis =>
    have room : 128 ≤ (top + 1) * 128 ^ (size + 1) := by
      rw [Nat.pow_succ, ← Nat.mul_assoc]
      exact Nat.le_mul_of_pos_left _ (Nat.mul_pos (by omega) (Nat.pow_pos (by decide)))
    rcases isNumeral_cases numeral with
      ⟨byte, rfl, ends, -⟩ | ⟨byte, others, rfl, continues, numeral⟩
    · simp only [total]
      omega
    · have bounded := inductionHypothesis numeral
      rw [Nat.pow_succ, ← Nat.mul_assoc, total]
      omega

/-! ## What is consumed for a number -/

/-- The digits that are consumed for a number are those that would be written for it, or more. -/
theorem exists_digits_of_read {value : Nat} {bytes rest : Bytes}
    (accepted : read .long bytes = .ok (value, rest)) :
    ∃ digits, bytes = digits ++ rest ∧ value < 2 ^ 64 ∧
      (digits = encode value ∨ (encode value).length < digits.length) := by
  rcases read_long_eq_ok_iff.mp accepted with ⟨digits, same, numeral, rfl⟩
  exact ⟨digits, same, total_lt numeral (by decide), eq_encode_or_longer numeral⟩

/-- What is consumed for a number is no shorter than what would be written for it. -/
theorem exists_of_read {value : Nat} {bytes rest : Bytes}
    (accepted : read .long bytes = .ok (value, rest)) :
    ∃ digits, bytes = digits ++ rest ∧ (encode value).length ≤ digits.length ∧ value < 2 ^ 64 := by
  rcases exists_digits_of_read accepted with ⟨digits, same, bounded, rfl | longer⟩
  · exact ⟨_, same, Nat.le_refl _, bounded⟩
  · exact ⟨digits, same, Nat.le_of_lt longer, bounded⟩

/-- Written numbers of 64 bits of which one begins with the other are the same. -/
theorem eq_of_encode_prefix {value other : Nat} (fits : value < 2 ^ 64) (otherFits : other < 2 ^ 64)
    (begins : encode value <+: encode other) : value = other := by
  rcases begins with ⟨behind, same⟩
  have first := read_encode value behind fits
  have second := read_encode other [] otherFits
  rw [List.append_nil, ← same] at second
  exact congrArg Prod.fst (Except.ok.inj (first.symm.trans second))

end SchemaRecords.Wire.Varint
