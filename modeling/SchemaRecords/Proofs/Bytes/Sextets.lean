import SchemaRecords.Bytes.Base64

/-!
# Sextets of bytes

Bytes are spelled in base64 in two steps.  Their bits are cut into values of six, which no form has
a say in; then a form decides by which symbols the values are spelled, and whether the last group is
filled up.  This module separates the two: `sextets` is the first step, `encode_eq` says that a form
adds nothing but the second, and `sextets_eq_of_encode_eq` that its choice never hides the first.
-/

namespace SchemaRecords.Bytes.Base64

/-! ## Sextets -/

/-- The values of six bits that bytes are cut into, the last of them filled up with zeros. -/
def sextets : Bytes → List Nat
  | [] => []
  | [a] => [a.toNat / 4, a.toNat % 4 * 16]
  | [a, b] => [a.toNat / 4, a.toNat % 4 * 16 + b.toNat / 16, b.toNat % 16 * 4]
  | a :: b :: c :: rest =>
    a.toNat / 4 :: (a.toNat % 4 * 16 + b.toNat / 16) :: (b.toNat % 16 * 4 + c.toNat / 64) ::
      c.toNat % 64 :: sextets rest

theorem sextets_small (bytes : Bytes) : ∀ value ∈ sextets bytes, value < 64 := by
  fun_induction sextets bytes with
  | case1 => exact List.forall_mem_nil _
  | case2 a =>
    have smallA := a.toNat_lt
    simp only [List.forall_mem_cons]
    exact ⟨by omega, by omega, List.forall_mem_nil _⟩
  | case3 a b =>
    have smallA := a.toNat_lt
    have smallB := b.toNat_lt
    simp only [List.forall_mem_cons]
    exact ⟨by omega, by omega, by omega, List.forall_mem_nil _⟩
  | case4 a b c rest inductionHypothesis =>
    have smallA := a.toNat_lt
    have smallB := b.toNat_lt
    have smallC := c.toNat_lt
    simp only [List.forall_mem_cons]
    exact ⟨by omega, by omega, by omega, by omega, inductionHypothesis⟩

/-- Each group of three bytes takes a sextet more than it has bytes, and so does what is left. -/
theorem length_sextets (bytes : Bytes) :
    (sextets bytes).length = bytes.length + (bytes.length + 2) / 3 := by
  fun_induction sextets bytes with
  | case1 => rfl
  | case2 => simp only [List.length_cons, List.length_nil]
  | case3 => simp only [List.length_cons, List.length_nil]
  | case4 a b c rest inductionHypothesis =>
    simp only [List.length_cons, inductionHypothesis]
    omega

theorem Form.fill_zero (form : Form) : form.fill 0 = [] := by
  rcases form with ⟨alphabet, _ | _⟩ <;> rfl

/-- A form spells the sextets by its symbols and fills up the last group. -/
theorem encode_eq (form : Form) (bytes : Bytes) :
    encode form bytes =
      (sextets bytes).map form.alphabet.symbol ++ form.fill ((3 - bytes.length % 3) % 3) := by
  fun_induction sextets bytes with
  | case1 => exact form.fill_zero.symm
  | case2 => rfl
  | case3 => rfl
  | case4 a b c rest inductionHypothesis =>
    have same : (rest.length + 1 + 1 + 1) % 3 = rest.length % 3 := by omega
    simp only [encode, inductionHypothesis, List.map_cons, List.cons_append, List.length_cons, same]

theorem Form.length_fill_le (form : Form) (count : Nat) : (form.fill count).length ≤ count := by
  rcases form with ⟨alphabet, _ | _⟩
  · exact Nat.le_of_eq List.length_replicate
  · exact Nat.zero_le count

theorem Form.eq_pad_of_mem_fill (form : Form) {count : Nat} {byte : UInt8}
    (member : byte ∈ form.fill count) : byte = pad := by
  rcases form with ⟨alphabet, _ | _⟩
  · exact List.eq_of_mem_replicate member
  · exact absurd member List.not_mem_nil

/-- A group of three bytes takes four characters, and what is left no more than that. -/
theorem length_encode_le (form : Form) (bytes : Bytes) :
    (encode form bytes).length ≤ (bytes.length + 2) / 3 * 4 := by
  have filled := form.length_fill_le ((3 - bytes.length % 3) % 3)
  rw [encode_eq, List.length_append, List.length_map, length_sextets]
  omega

/-! ## Groups -/

/-- The sextets of three bytes are joined to these bytes. -/
theorem joinSymbols_bytes (a b c : UInt8) :
    joinSymbols [a.toNat / 4, a.toNat % 4 * 16 + b.toNat / 16, b.toNat % 16 * 4 + c.toNat / 64,
      c.toNat % 64] = [a, b, c] := by
  have smallA := a.toNat_lt
  have smallB := b.toNat_lt
  have smallC := c.toNat_lt
  have first : a.toNat / 4 * 4 + (a.toNat % 4 * 16 + b.toNat / 16) / 16 = a.toNat := by omega
  have second : (a.toNat % 4 * 16 + b.toNat / 16) % 16 * 16 +
      (b.toNat % 16 * 4 + c.toNat / 64) / 4 = b.toNat := by omega
  have third : (b.toNat % 16 * 4 + c.toNat / 64) % 4 * 64 + c.toNat % 64 = c.toNat := by omega
  simp only [joinSymbols, first, second, third, UInt8.ofNat_toNat]

/-- The sextets of at most three bytes are joined to these bytes, and leave no bits over. -/
theorem joinSymbols_sextets {bytes : Bytes} (few : bytes.length ≤ 3) :
    joinSymbols (sextets bytes) = bytes ∧ looseBits (sextets bytes) = 0 := by
  match bytes with
  | [] => exact ⟨rfl, rfl⟩
  | [a] =>
    have small := a.toNat_lt
    have first : a.toNat / 4 * 4 + a.toNat % 4 * 16 / 16 = a.toNat := by omega
    have tight : a.toNat % 4 * 16 % 16 = 0 := by omega
    exact ⟨by simp only [sextets, joinSymbols, first, UInt8.ofNat_toNat], tight⟩
  | [a, b] =>
    have smallA := a.toNat_lt
    have smallB := b.toNat_lt
    have first : a.toNat / 4 * 4 + (a.toNat % 4 * 16 + b.toNat / 16) / 16 = a.toNat := by omega
    have second : (a.toNat % 4 * 16 + b.toNat / 16) % 16 * 16 + b.toNat % 16 * 4 / 4 = b.toNat := by
      omega
    have tight : b.toNat % 16 * 4 % 4 = 0 := by omega
    exact ⟨by simp only [sextets, joinSymbols, first, second, UInt8.ofNat_toNat], tight⟩
  | [a, b, c] => exact ⟨joinSymbols_bytes a b c, rfl⟩
  | _ :: _ :: _ :: _ :: rest =>
    simp only [List.length_cons] at few
    omega

/-- Four sextets are those of the bytes that they are joined to. -/
theorem sextets_joinSymbols_append {a b c d : Nat} (small : ∀ value ∈ [a, b, c, d], value < 64)
    (rest : Bytes) :
    sextets (joinSymbols [a, b, c, d] ++ rest) = a :: b :: c :: d :: sextets rest := by
  simp only [List.forall_mem_cons] at small
  rcases small with ⟨smallA, smallB, smallC, smallD, -⟩
  simp only [joinSymbols, List.cons_append, List.nil_append, sextets]
  rw [UInt8.toNat_ofNat_of_lt' (show a * 4 + b / 16 < 256 by omega),
    UInt8.toNat_ofNat_of_lt' (show b % 16 * 16 + c / 4 < 256 by omega),
    UInt8.toNat_ofNat_of_lt' (show c % 4 * 64 + d < 256 by omega)]
  congr 1
  · omega
  · congr 1
    · omega
    · congr 1
      · omega
      · congr 1
        omega

/-- A last group without loose bits holds the sextets of the bytes that it is joined to. -/
theorem sextets_joinSymbols {values : List Nat} (small : ∀ value ∈ values, value < 64)
    (few : values.length ≤ 4) (several : values.length ≠ 1) (tight : looseBits values = 0) :
    sextets (joinSymbols values) = values ∧ (joinSymbols values).length = values.length - 1 := by
  match values with
  | [] => exact ⟨rfl, rfl⟩
  | [_] => exact absurd rfl several
  | [a, b] =>
    simp only [List.forall_mem_cons] at small
    rcases small with ⟨smallA, smallB, -⟩
    simp only [looseBits] at tight
    refine ⟨?_, rfl⟩
    simp only [joinSymbols, sextets]
    rw [UInt8.toNat_ofNat_of_lt' (show a * 4 + b / 16 < 256 by omega)]
    congr 1
    · omega
    · congr 1
      omega
  | [a, b, c] =>
    simp only [List.forall_mem_cons] at small
    rcases small with ⟨smallA, smallB, smallC, -⟩
    simp only [looseBits] at tight
    refine ⟨?_, rfl⟩
    simp only [joinSymbols, sextets]
    rw [UInt8.toNat_ofNat_of_lt' (show a * 4 + b / 16 < 256 by omega),
      UInt8.toNat_ofNat_of_lt' (show b % 16 * 16 + c / 4 < 256 by omega)]
    congr 1
    · omega
    · congr 1
      · omega
      · congr 1
        omega
  | [a, b, c, d] =>
    have four := sextets_joinSymbols_append small []
    rw [List.append_nil] at four
    exact ⟨four, rfl⟩
  | _ :: _ :: _ :: _ :: _ :: rest =>
    simp only [List.length_cons] at few
    omega

/-! ## Symbols -/

section

variable {alphabet : Alphabet} {byte : UInt8} {value : Nat}

theorem Alphabet.mem_both (alphabet : Alphabet) : alphabet ∈ [Alphabet.standard, .urlSafe] := by
  cases alphabet with
  | standard => exact List.mem_cons_self
  | urlSafe => exact List.mem_cons_of_mem _ List.mem_cons_self

theorem symbol_facts (small : value < 64) :
    alphabet.value? (alphabet.symbol value) = some value ∧ alphabet.symbol value ≠ pad ∧
      (alphabet.symbol value).toNat < 128 := by
  have each : ∀ value < 64, ∀ alphabet ∈ [Alphabet.standard, .urlSafe],
      alphabet.value? (alphabet.symbol value) = some value ∧ alphabet.symbol value ≠ pad ∧
        (alphabet.symbol value).toNat < 128 := by decide +kernel
  exact each value small alphabet alphabet.mem_both

/-- A byte has a value in an alphabet exactly if it is the symbol of this value. -/
theorem value?_eq_some_iff :
    alphabet.value? byte = some value ↔ value < 64 ∧ alphabet.symbol value = byte := by
  constructor
  · intro found
    have each : ∀ code < 256, ∀ alphabet ∈ [Alphabet.standard, .urlSafe],
        ∀ value ∈ (alphabet.value? (UInt8.ofNat code)).toList,
          value < 64 ∧ alphabet.symbol value = UInt8.ofNat code := by decide +kernel
    have here := each byte.toNat byte.toNat_lt
    rw [UInt8.ofNat_toNat] at here
    exact here alphabet alphabet.mem_both value (Option.mem_toList.mpr found)
  · rintro ⟨small, rfl⟩
    exact (symbol_facts small).1

theorem readSymbol_eq_ok_iff {form : Form} {offset : Nat} :
    form.readSymbol byte offset = .ok value ↔ value < 64 ∧ form.alphabet.symbol value = byte := by
  rw [← value?_eq_some_iff, Form.readSymbol]
  cases form.alphabet.value? byte <;> simp

end

/-! ## The sextets of a spelling -/

/-- The value of a symbol, whichever alphabet has it. -/
def symbolValue? (byte : UInt8) : Option Nat :=
  (Alphabet.standard.value? byte).or (Alphabet.urlSafe.value? byte)

theorem symbolValue?_symbol {alphabet : Alphabet} {value : Nat} (small : value < 64) :
    symbolValue? (alphabet.symbol value) = some value := by
  have each : ∀ value < 64, ∀ alphabet ∈ [Alphabet.standard, .urlSafe],
      symbolValue? (alphabet.symbol value) = some value := by decide +kernel
  exact each value small alphabet alphabet.mem_both

theorem filterMap_symbols (alphabet : Alphabet) {values : List Nat}
    (small : ∀ value ∈ values, value < 64) :
    (values.map alphabet.symbol).filterMap symbolValue? = values := by
  induction values with
  | nil => rfl
  | cons value others inductionHypothesis =>
    rcases List.forall_mem_cons.mp small with ⟨valueSmall, othersSmall⟩
    rw [List.map_cons, List.filterMap_cons_some (symbolValue?_symbol valueSmall),
      inductionHypothesis othersSmall]

/-- The sextets are told from a spelling without knowing its form. -/
theorem filterMap_encode (form : Form) (bytes : Bytes) :
    (encode form bytes).filterMap symbolValue? = sextets bytes := by
  have symbols := filterMap_symbols form.alphabet (sextets_small bytes)
  have padding : (form.fill ((3 - bytes.length % 3) % 3)).filterMap symbolValue? = [] :=
    List.filterMap_eq_nil_iff.mpr fun byte member => form.eq_pad_of_mem_fill member ▸ rfl
  rw [encode_eq, List.filterMap_append, symbols, padding, List.append_nil]

/-- Spellings in two forms that agree have the same sextets. -/
theorem sextets_eq_of_encode_eq {form other : Form} {bytes others : Bytes}
    (same : encode form bytes = encode other others) : sextets bytes = sextets others := by
  rw [← filterMap_encode form, same, filterMap_encode]

end SchemaRecords.Bytes.Base64
