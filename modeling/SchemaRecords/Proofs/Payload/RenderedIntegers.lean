import SchemaRecords.Payload.Conversion
import SchemaRecords.Payload.Rendering
import SchemaRecords.Proofs.Number.WrittenNumerals
import SchemaRecords.Proofs.Outcome

/-!
# Rendered integers are converted back

The ten integer types differ in width, in sign and in how a number is put on the wire, but
each of them holds a range of integers, shows an integer in one way, and writes it in one
way.  Everything a document or a payload can give a field of such a type comes down to an
integer of that range, and showing an integer and writing it lead to each other.
-/

namespace SchemaRecords.Payload

open SchemaRecords.Number
open SchemaRecords.Schema

/-! ## Integers of a type -/

/-- An integer that a type holds.  Types that are not integer types hold none. -/
def HoldsInteger (type : Scalar) (n : Int) : Prop :=
  match type with
  | .int32 | .sint32 | .sfixed32 => -2 ^ 31 ≤ n ∧ n < 2 ^ 31
  | .int64 | .sint64 | .sfixed64 => -2 ^ 63 ≤ n ∧ n < 2 ^ 63
  | .uint32 | .fixed32 => 0 ≤ n ∧ n < 2 ^ 32
  | .uint64 | .fixed64 => 0 ≤ n ∧ n < 2 ^ 64
  | _ => False

/-- How an integer of a type is written. -/
def wireOfInteger (type : Scalar) (n : Int) : Wire.Value :=
  match type with
  | .sint32 | .sint64 => .varint (.ofNat (Wire.ZigZag.encode n))
  | .uint32 | .uint64 => .varint (.ofNat n.toNat)
  | .fixed32 => .fixed32 (.ofNat n.toNat)
  | .sfixed32 => .fixed32 (.ofInt n)
  | .fixed64 => .fixed64 (.ofNat n.toNat)
  | .sfixed64 => .fixed64 (.ofInt n)
  | _ => .varint (.ofInt n)

/-- How an integer of a type appears in a document. -/
def showInteger (type : Scalar) (n : Int) : Json.Value :=
  match type with
  | .int64 | .uint64 | .sint64 | .fixed64 | .sfixed64 => renderLong n
  | _ => .int n

/-- A document gives an integer as a number or as its numeral in a string. -/
inductive Spells (n : Int) : Json.Value → Prop where
  | number : Spells n (.int n)
  | numeral : Spells n (.string (String.ofList (Numeral.ofInt n)))

theorem Spells.notNull {n : Int} {value : Json.Value} (spells : Spells n value) :
    value.isNull = false := by
  cases spells <;> rfl

theorem renderLong_spells (n : Int) : Spells n (renderLong n) := by
  unfold renderLong
  split
  · exact .number
  · exact .numeral

theorem showInteger_spells (type : Scalar) (n : Int) : Spells n (showInteger type n) := by
  cases type
  case int64 | uint64 | sint64 | fixed64 | sfixed64 => exact renderLong_spells n
  all_goals exact .number

/-! ## Words -/

theorem signed_bounds (width : Nat) (positive : 0 < width) (word : Nat) :
    -2 ^ (width - 1) ≤ signed width word ∧ signed width word < 2 ^ (width - 1) := by
  have half : (2 : Nat) ^ width = 2 * 2 ^ (width - 1) := by
    rw [← Nat.pow_succ', Nat.succ_eq_add_one, Nat.sub_one_add_one (by omega)]
  have least := Int.le_bmod (x := word) (m := 2 ^ width) (Nat.pow_pos (by decide))
  have greatest := Int.bmod_lt (x := word) (m := 2 ^ width) (Nat.pow_pos (by decide))
  have same : ((2 ^ (width - 1) : Nat) : Int) = 2 ^ (width - 1) := Int.natCast_pow 2 (width - 1)
  unfold signed
  omega

theorem toNat_ofInt64 (n : Int) : ((UInt64.ofInt n).toNat : Int) = n % 2 ^ 64 := by
  have small : (n % 2 ^ 64).toNat < 2 ^ 64 := by omega
  rw [UInt64.ofInt, UInt64.toNat_ofNat', Nat.mod_eq_of_lt small]
  omega

theorem toNat_ofInt32 (n : Int) : ((UInt32.ofInt n).toNat : Int) = n % 2 ^ 32 := by
  have small : (n % 2 ^ 32).toNat < 2 ^ 32 := by omega
  rw [UInt32.ofInt, UInt32.toNat_ofNat', Nat.mod_eq_of_lt small]
  omega

theorem toNat_ofNat64 {n : Nat} (small : n < 2 ^ 64) : (UInt64.ofNat n).toNat = n := by
  rw [UInt64.toNat_ofNat', Nat.mod_eq_of_lt small]

theorem toNat_ofNat32 {n : Nat} (small : n < 2 ^ 32) : (UInt32.ofNat n).toNat = n := by
  rw [UInt32.toNat_ofNat', Nat.mod_eq_of_lt small]

theorem signed_narrow {word : Nat} {n : Int} (congruent : (word : Int) % 2 ^ 32 = n % 2 ^ 32)
    (least : -2 ^ 31 ≤ n) (greatest : n < 2 ^ 31) : signed 32 word = n := by
  have modulus : ((2 ^ 32 : Nat) : Int) = 2 ^ 32 := rfl
  rw [signed, Int.bmod_def, modulus]
  split <;> omega

theorem signed_wide {word : Nat} {n : Int} (congruent : (word : Int) = n % 2 ^ 64)
    (least : -2 ^ 63 ≤ n) (greatest : n < 2 ^ 63) : signed 64 word = n := by
  have modulus : ((2 ^ 64 : Nat) : Int) = 2 ^ 64 := rfl
  rw [signed, Int.bmod_def, modulus]
  split <;> omega

theorem zigZag_bounds (bits : Nat) {n : Int} (least : -2 ^ bits ≤ n) (greatest : n < 2 ^ bits) :
    Wire.ZigZag.encode n < 2 ^ (bits + 1) := by
  have same : ((2 ^ bits : Nat) : Int) = 2 ^ bits := Int.natCast_pow 2 bits
  rw [Nat.pow_succ]
  unfold Wire.ZigZag.encode
  split <;> omega

theorem zigZag_decode_bounds (bits : Nat) {code : Nat} (small : code < 2 ^ (bits + 1)) :
    -2 ^ bits ≤ Wire.ZigZag.decode code ∧ Wire.ZigZag.decode code < 2 ^ bits := by
  have same : ((2 ^ bits : Nat) : Int) = 2 ^ bits := Int.natCast_pow 2 bits
  rw [Nat.pow_succ] at small
  unfold Wire.ZigZag.decode
  split <;> omega

/-! ## From documents to the wire -/

/-- The ranges of 64 bits, in which every integer is read first. -/
def IsLong (range : IntegerRange) : Prop := range = .signed64 ∨ range = .unsigned64

theorem holds_iff (range : IntegerRange) (n : Int) :
    range.holds n = true ↔ range.least ≤ n ∧ n ≤ range.greatest := by
  rw [IntegerRange.holds, Bool.and_eq_true, decide_eq_true_eq, decide_eq_true_eq]

theorem holds_signed64 (n : Int) :
    IntegerRange.signed64.holds n = true ↔ -2 ^ 63 ≤ n ∧ n ≤ 2 ^ 63 - 1 :=
  holds_iff .signed64 n

theorem holds_unsigned64 (n : Int) :
    IntegerRange.unsigned64.holds n = true ↔ 0 ≤ n ∧ n ≤ 2 ^ 64 - 1 :=
  holds_iff .unsigned64 n

theorem readNumeral_signed64 (text : List Char) :
    IntegerRange.signed64.readNumeral text = Numeral.readInt (2 ^ 63 - 1) text := rfl

theorem readNumeral_unsigned64 (text : List Char) :
    IntegerRange.unsigned64.readNumeral text =
      (Numeral.readNat 10 (2 ^ 64 - 1) text).map Int.ofNat := rfl

theorem readNumeral_ofInt {range : IntegerRange} (long : IsLong range) {n : Int}
    (holds : range.holds n = true) : range.readNumeral (Numeral.ofInt n) = .ok n := by
  rcases long with same | same
  · subst same
    rw [holds_signed64] at holds
    rw [readNumeral_signed64]
    exact Numeral.readInt_ofInt (by omega) (by omega)
  · subst same
    rw [holds_unsigned64] at holds
    rw [readNumeral_unsigned64]
    cases n with
    | ofNat n =>
      have small : n ≤ 2 ^ 64 - 1 := by
        have := holds.2
        simp only [Int.ofNat_eq_natCast] at this
        omega
      rw [Numeral.ofInt, Numeral.readNat_ofNat small]
      rfl
    | negSucc n => exact absurd holds.1 (by omega)

theorem readLong_spelled {range other : IntegerRange} (long : IsLong range) {n : Int}
    (holds : range.holds n = true) {value : Json.Value} (spells : Spells n value) (field : String)
    (type : ValueType) : readLong range other field type value = .ok n := by
  cases spells with
  | number => simp only [readLong, Json.Value.int, holds, if_true]
  | numeral =>
    simp only [readLong, String.toList_ofList, Text.trim_ofInt, readNumeral_ofInt long holds]

/-- What is read as a signed integer of a width is read as a long one, and is in the range. -/
theorem readSigned_eq_ok_iff {width : Nat} {field : String} {type : ValueType} {value : Json.Value}
    {n : Int} :
    readSigned width field type value = .ok n ↔ (-2 ^ (width - 1) ≤ n ∧ n < 2 ^ (width - 1)) ∧
      readLong .signed64 .unsigned64 field type value = .ok n := by
  unfold readSigned
  cases readLong .signed64 .unsigned64 field type value with
  | error refusal => simp
  | ok m =>
    dsimp only
    rw [Except.ok.injEq]
    split
    · rename_i bounds
      exact ⟨fun same => Except.ok.inj same ▸ ⟨bounds, rfl⟩, fun same => congrArg _ same.2⟩
    · rename_i outside
      constructor
      · intro impossible
        cases impossible
      · exact fun same => absurd (same.2 ▸ same.1) outside

/-- What is read as an unsigned integer is one that an unsigned range of 64 bits holds. -/
theorem readLong_nonneg {other : IntegerRange} {field : String} {type : ValueType}
    {value : Json.Value} {n : Int} (read : readLong .unsigned64 other field type value = .ok n) :
    0 ≤ n := by
  unfold readLong at read
  split at read
  · split at read
    · cases read
      rename_i holds
      exact ((holds_unsigned64 n).mp holds).1
    · cases read
  · split at read
    · cases read
    · split at read
      · cases read
        rename_i bounds
        simp only [IntegerRange.unsigned64] at bounds ⊢
        omega
      · cases read
  · dsimp only at read
    split at read
    · cases read
      rename_i numeral
      rw [readNumeral_unsigned64] at numeral
      rcases Outcome.map_eq_ok_iff.mp numeral with ⟨magnitude, _, same⟩
      rw [← same]
      exact Int.natCast_nonneg magnitude
    · split at read <;> cases read
  · cases read

theorem readUnsigned_eq_ok_iff {width n : Nat} {field : String} {type : ValueType}
    {value : Json.Value} :
    readUnsigned width field type value = .ok n ↔
      n < 2 ^ width ∧ readLong .unsigned64 .signed64 field type value = .ok (n : Int) := by
  have power : ((2 ^ width : Nat) : Int) = 2 ^ width := Int.natCast_pow 2 width
  unfold readUnsigned
  cases long : readLong .unsigned64 .signed64 field type value with
  | error refusal => simp
  | ok m =>
    have nonneg := readLong_nonneg long
    dsimp only
    rw [Except.ok.injEq]
    split
    · rw [Except.ok.injEq]
      omega
    · constructor
      · intro impossible
        cases impossible
      · omega

theorem readSigned_spelled (width : Nat) {n : Int} (holds : IntegerRange.signed64.holds n = true)
    (inRange : -2 ^ (width - 1) ≤ n ∧ n < 2 ^ (width - 1)) {value : Json.Value}
    (spells : Spells n value) (field : String) (type : ValueType) :
    readSigned width field type value = .ok n :=
  readSigned_eq_ok_iff.mpr ⟨inRange, readLong_spelled (.inl rfl) holds spells field type⟩

theorem readUnsigned_spelled (width : Nat) {n : Int}
    (holds : IntegerRange.unsigned64.holds n = true) (inRange : n < 2 ^ width) {value : Json.Value}
    (spells : Spells n value) (field : String) (type : ValueType) :
    readUnsigned width field type value = .ok n.toNat := by
  simp only [readUnsigned, readLong_spelled (.inr rfl) holds spells, if_pos inRange]

/-- An integer of a type is converted to the value that writes it, however it is spelled. -/
theorem convertScalar_spelled {type : Scalar} {n : Int} (holds : HoldsInteger type n)
    {value : Json.Value} (spells : Spells n value) (field : String) :
    convertScalar field type value = .ok (wireOfInteger type n) := by
  have signedLong (bounds : -2 ^ 63 ≤ n ∧ n < 2 ^ 63) : IntegerRange.signed64.holds n = true := by
    rw [holds_signed64]
    omega
  have unsignedLong (bounds : 0 ≤ n ∧ n < 2 ^ 64) : IntegerRange.unsigned64.holds n = true := by
    rw [holds_unsigned64]
    omega
  cases type
  case int32 | sint32 | sfixed32 =>
    simp only [convertScalar, readSigned_spelled 32 (signedLong (by
      simp only [HoldsInteger] at holds; omega)) holds spells]
    rfl
  case int64 | sint64 | sfixed64 =>
    simp only [convertScalar, readSigned_spelled 64 (signedLong holds) holds spells]
    rfl
  case uint32 | fixed32 =>
    simp only [convertScalar, readUnsigned_spelled 32 (unsignedLong (by
      simp only [HoldsInteger] at holds; omega)) holds.2 spells]
    rfl
  case uint64 | fixed64 =>
    simp only [convertScalar, readUnsigned_spelled 64 (unsignedLong holds) holds.2 spells]
    rfl
  all_goals exact absurd holds id

/-- Whether a type is one of the ten integer types. -/
def isIntegerType (type : Scalar) : Bool :=
  match type with
  | .double | .float | .bool | .string | .bytes => false
  | _ => true

/-- What is converted to an integer type writes an integer of that type. -/
theorem exists_of_convertScalar {type : Scalar} (integer : isIntegerType type = true)
    {field : String} {value : Json.Value} {wire : Wire.Value}
    (converted : convertScalar field type value = .ok wire) :
    ∃ n, HoldsInteger type n ∧ wire = wireOfInteger type n := by
  cases type
  case int32 | int64 | sint32 | sint64 | sfixed32 | sfixed64 =>
    rcases Outcome.map_eq_ok_iff.mp converted with ⟨n, read, same⟩
    exact ⟨n, (readSigned_eq_ok_iff.mp read).1, same.symm⟩
  case uint32 | uint64 | fixed32 | fixed64 =>
    rcases Outcome.map_eq_ok_iff.mp converted with ⟨n, read, same⟩
    have small := (readUnsigned_eq_ok_iff.mp read).1
    refine ⟨n, ⟨Int.natCast_nonneg n, ?_⟩, same.symm⟩
    omega
  all_goals cases integer

/-! ## From the wire to documents -/

theorem renderNumeric?_wire {type : Scalar} {n : Int} (holds : HoldsInteger type n) :
    renderNumeric? type (wireOfInteger type n) = some (showInteger type n) := by
  have narrow (bounds : -2 ^ 31 ≤ n ∧ n < 2 ^ 31) := zigZag_bounds 31 bounds.1 bounds.2
  have wide (bounds : -2 ^ 63 ≤ n ∧ n < 2 ^ 63) := zigZag_bounds 63 bounds.1 bounds.2
  cases type
  case int32 =>
    have word := toNat_ofInt64 n
    have same : signed 32 (UInt64.ofInt n).toNat = n :=
      signed_narrow (by omega) holds.1 holds.2
    simp only [wireOfInteger, renderNumeric?, showInteger, same]
  case sfixed32 =>
    have word := toNat_ofInt32 n
    have same : signed 32 (UInt32.ofInt n).toNat = n :=
      signed_narrow (by omega) holds.1 holds.2
    simp only [wireOfInteger, renderNumeric?, showInteger, same]
  case int64 =>
    have same : signed 64 (UInt64.ofInt n).toNat = n :=
      signed_wide (toNat_ofInt64 n) holds.1 holds.2
    simp only [wireOfInteger, renderNumeric?, showInteger, same]
  case sfixed64 =>
    have same : signed 64 (UInt64.ofInt n).toNat = n :=
      signed_wide (toNat_ofInt64 n) holds.1 holds.2
    simp only [wireOfInteger, renderNumeric?, showInteger, same]
  case sint32 =>
    have small := narrow holds
    have whole : (UInt64.ofNat (Wire.ZigZag.encode n)).toNat % 2 ^ 32 = Wire.ZigZag.encode n := by
      rw [toNat_ofNat64 (by omega), Nat.mod_eq_of_lt small]
    simp only [wireOfInteger, renderNumeric?, showInteger, whole, Wire.ZigZag.decode_encode]
  case sint64 =>
    have whole := toNat_ofNat64 (wide holds)
    simp only [wireOfInteger, renderNumeric?, showInteger, whole, Wire.ZigZag.decode_encode]
  case uint32 =>
    simp only [HoldsInteger] at holds
    have whole : (UInt64.ofNat n.toNat).toNat % 2 ^ 32 = n.toNat := by
      rw [toNat_ofNat64 (by omega), Nat.mod_eq_of_lt (by omega)]
    simp only [wireOfInteger, renderNumeric?, showInteger, whole, Int.toNat_of_nonneg holds.1]
  case uint64 =>
    simp only [HoldsInteger] at holds
    have whole : (UInt64.ofNat n.toNat).toNat = n.toNat := toNat_ofNat64 (by omega)
    simp only [wireOfInteger, renderNumeric?, showInteger, whole, Int.toNat_of_nonneg holds.1]
  case fixed32 =>
    simp only [HoldsInteger] at holds
    have whole : (UInt32.ofNat n.toNat).toNat = n.toNat := toNat_ofNat32 (by omega)
    simp only [wireOfInteger, renderNumeric?, showInteger, whole, Int.toNat_of_nonneg holds.1]
  case fixed64 =>
    simp only [HoldsInteger] at holds
    have whole : (UInt64.ofNat n.toNat).toNat = n.toNat := toNat_ofNat64 (by omega)
    simp only [wireOfInteger, renderNumeric?, showInteger, whole, Int.toNat_of_nonneg holds.1]
  all_goals exact absurd holds id

/-- What a payload gives a field of an integer type shows an integer of that type. -/
theorem exists_of_renderNumeric? {type : Scalar} (integer : isIntegerType type = true)
    {wire : Wire.Value} {value : Json.Value} (rendered : renderNumeric? type wire = some value) :
    ∃ n, HoldsInteger type n ∧ value = showInteger type n := by
  have narrow (word : Nat) := signed_bounds 32 (by decide) word
  have wide (word : Nat) := signed_bounds 64 (by decide) word
  have natural {value bits : Nat} (small : value < 2 ^ bits) :
      0 ≤ (value : Int) ∧ (value : Int) < 2 ^ bits := by
    have same : ((2 ^ bits : Nat) : Int) = 2 ^ bits := Int.natCast_pow 2 bits
    omega
  cases type
  case int32 =>
    cases wire with
    | varint word => exact ⟨_, narrow word.toNat, (Option.some.inj rendered).symm⟩
    | _ => cases rendered
  case int64 =>
    cases wire with
    | varint word => exact ⟨_, wide word.toNat, (Option.some.inj rendered).symm⟩
    | _ => cases rendered
  case sfixed32 =>
    cases wire with
    | fixed32 word => exact ⟨_, narrow word.toNat, (Option.some.inj rendered).symm⟩
    | _ => cases rendered
  case sfixed64 =>
    cases wire with
    | fixed64 word => exact ⟨_, wide word.toNat, (Option.some.inj rendered).symm⟩
    | _ => cases rendered
  case sint32 =>
    cases wire with
    | varint word =>
      have bounds := zigZag_decode_bounds 31 (Nat.mod_lt word.toNat (by decide))
      exact ⟨_, bounds, (Option.some.inj rendered).symm⟩
    | _ => cases rendered
  case sint64 =>
    cases wire with
    | varint word =>
      have bounds := zigZag_decode_bounds 63 word.toNat_lt
      exact ⟨_, bounds, (Option.some.inj rendered).symm⟩
    | _ => cases rendered
  case uint32 =>
    cases wire with
    | varint word =>
      have bounds := natural (Nat.mod_lt word.toNat (y := 2 ^ 32) (by decide))
      exact ⟨_, bounds, (Option.some.inj rendered).symm⟩
    | _ => cases rendered
  case uint64 =>
    cases wire with
    | varint word => exact ⟨_, natural word.toNat_lt, (Option.some.inj rendered).symm⟩
    | _ => cases rendered
  case fixed32 =>
    cases wire with
    | fixed32 word => exact ⟨_, natural word.toNat_lt, (Option.some.inj rendered).symm⟩
    | _ => cases rendered
  case fixed64 =>
    cases wire with
    | fixed64 word => exact ⟨_, natural word.toNat_lt, (Option.some.inj rendered).symm⟩
    | _ => cases rendered
  all_goals cases integer

/-! ## Zero -/

theorem ofInt64_eq_zero_iff (n : Int) : UInt64.ofInt n = 0 ↔ n % 2 ^ 64 = 0 := by
  rw [← UInt64.toNat_inj, ← toNat_ofInt64]
  exact Int.natCast_eq_zero.symm

theorem ofInt32_eq_zero_iff (n : Int) : UInt32.ofInt n = 0 ↔ n % 2 ^ 32 = 0 := by
  rw [← UInt32.toNat_inj, ← toNat_ofInt32]
  exact Int.natCast_eq_zero.symm

theorem ofNat64_eq_zero_iff {value : Nat} (small : value < 2 ^ 64) :
    UInt64.ofNat value = 0 ↔ value = 0 := by
  rw [← UInt64.toNat_inj, toNat_ofNat64 small]
  rfl

theorem ofNat32_eq_zero_iff {value : Nat} (small : value < 2 ^ 32) :
    UInt32.ofNat value = 0 ↔ value = 0 := by
  rw [← UInt32.toNat_inj, toNat_ofNat32 small]
  rfl

theorem zigZag_eq_zero_iff (n : Int) : Wire.ZigZag.encode n = 0 ↔ n = 0 := by
  unfold Wire.ZigZag.encode
  split <;> omega

/-- Only zero is written as zero. -/
theorem isZero_wireOfInteger {type : Scalar} {n : Int} (holds : HoldsInteger type n) :
    isZero (wireOfInteger type n) = decide (n = 0) := by
  have narrow (bounds : -2 ^ 31 ≤ n ∧ n < 2 ^ 31) := zigZag_bounds 31 bounds.1 bounds.2
  have wide (bounds : -2 ^ 63 ≤ n ∧ n < 2 ^ 63) := zigZag_bounds 63 bounds.1 bounds.2
  cases type
  case int32 | int64 =>
    simp only [HoldsInteger] at holds
    simp only [wireOfInteger, isZero, ofInt64_eq_zero_iff, decide_eq_decide]
    omega
  case sfixed64 =>
    simp only [HoldsInteger] at holds
    simp only [wireOfInteger, isZero, ofInt64_eq_zero_iff, decide_eq_decide]
    omega
  case sfixed32 =>
    simp only [HoldsInteger] at holds
    simp only [wireOfInteger, isZero, ofInt32_eq_zero_iff, decide_eq_decide]
    omega
  case sint32 =>
    have small : Wire.ZigZag.encode n < 2 ^ 64 := by
      have := narrow holds
      omega
    simp only [wireOfInteger, isZero, ofNat64_eq_zero_iff small, zigZag_eq_zero_iff]
  case sint64 =>
    simp only [wireOfInteger, isZero, ofNat64_eq_zero_iff (wide holds), zigZag_eq_zero_iff]
  case uint32 | uint64 =>
    simp only [HoldsInteger] at holds
    have small : n.toNat < 2 ^ 64 := by omega
    simp only [wireOfInteger, isZero, ofNat64_eq_zero_iff small, decide_eq_decide]
    omega
  case fixed64 =>
    simp only [HoldsInteger] at holds
    have small : n.toNat < 2 ^ 64 := by omega
    simp only [wireOfInteger, isZero, ofNat64_eq_zero_iff small, decide_eq_decide]
    omega
  case fixed32 =>
    simp only [HoldsInteger] at holds
    have small : n.toNat < 2 ^ 32 := by omega
    simp only [wireOfInteger, isZero, ofNat32_eq_zero_iff small, decide_eq_decide]
    omega
  all_goals exact absurd holds id

theorem sameSimple_int (n m : Int) : sameSimple (.int n) (.int m) = decide (n = m) := by
  simp only [sameSimple, Json.Value.int, Json.Number.integer.injEq]

theorem sameSimple_renderLong (n : Int) : sameSimple (renderLong n) (.int 0) = decide (n = 0) := by
  unfold renderLong
  split
  · exact sameSimple_int n 0
  · rename_i large
    have nonzero : n ≠ 0 := by
      intro zero
      rw [zero] at large
      exact large (by decide)
    rw [decide_eq_false nonzero]
    rfl

theorem isDefault_showInteger (pool : Pool) {type : Scalar} {n : Int}
    (holds : HoldsInteger type n) :
    isDefault pool (.scalar type) (showInteger type n) = decide (n = 0) := by
  cases type
  case int64 | uint64 | sint64 | fixed64 | sfixed64 => exact sameSimple_renderLong n
  case int32 | uint32 | sint32 | fixed32 | sfixed32 => exact sameSimple_int n 0
  all_goals exact absurd holds id

theorem layout_wireOfInteger {type : Scalar} {n : Int} (holds : HoldsInteger type n) :
    (wireOfInteger type n).layout = type.layout := by
  cases type
  case double | float | bool | string | bytes => exact absurd holds id
  all_goals rfl

/-! ## Numerals -/

/-- The integer that a text denotes, as a numeral of either range of 64 bits. -/
def Denotes (text : String) (n : Int) : Prop :=
  IntegerRange.signed64.readNumeral (Text.trim text.toList) = .ok n ∨
    IntegerRange.unsigned64.readNumeral (Text.trim text.toList) = .ok n

theorem readNumeral_of_readLong {range other : IntegerRange} {field text : String}
    {type : ValueType} {n : Int}
    (read : readLong range other field type (.string text) = .ok n) :
    range.readNumeral (Text.trim text.toList) = .ok n := by
  simp only [readLong] at read
  split at read
  · cases read
    assumption
  · split at read <;> cases read

theorem denotes_of_convertScalar {type : Scalar} (integer : isIntegerType type = true)
    {field text : String} {wire : Wire.Value}
    (converted : convertScalar field type (.string text) = .ok wire) :
    ∃ n, HoldsInteger type n ∧ wire = wireOfInteger type n ∧ Denotes text n := by
  cases type
  case int32 | int64 | sint32 | sint64 | sfixed32 | sfixed64 =>
    rcases Outcome.map_eq_ok_iff.mp converted with ⟨n, read, same⟩
    rcases readSigned_eq_ok_iff.mp read with ⟨bounds, long⟩
    exact ⟨n, bounds, same.symm, .inl (readNumeral_of_readLong long)⟩
  case uint32 | uint64 | fixed32 | fixed64 =>
    rcases Outcome.map_eq_ok_iff.mp converted with ⟨n, read, same⟩
    rcases readUnsigned_eq_ok_iff.mp read with ⟨small, long⟩
    refine ⟨n, ⟨Int.natCast_nonneg n, ?_⟩, same.symm, .inr (readNumeral_of_readLong long)⟩
    omega
  all_goals cases integer

/-- A text denotes one integer. -/
theorem Denotes.unique {text : String} {n m : Int} (first : Denotes text n)
    (second : Denotes text m) : n = m := by
  have mixed {n m : Int}
      (signed : IntegerRange.signed64.readNumeral (Text.trim text.toList) = .ok n)
      (unsigned : IntegerRange.unsigned64.readNumeral (Text.trim text.toList) = .ok m) :
      n = m := by
    rw [readNumeral_unsigned64] at unsigned
    rcases Outcome.map_eq_ok_iff.mp unsigned with ⟨natural, read, same⟩
    exact (Numeral.readInt_unique signed read).trans same
  rcases first with signed | unsigned
  · rcases second with other | other
    · exact Except.ok.inj (signed.symm.trans other)
    · exact mixed signed other
  · rcases second with other | other
    · exact (mixed other unsigned).symm
    · exact Except.ok.inj (unsigned.symm.trans other)

theorem ofInt_injective {n m : Int} (same : Numeral.ofInt n = Numeral.ofInt m) : n = m := by
  have read (value : Int) (least : -((n.natAbs + m.natAbs : Nat) : Int) - 1 ≤ value)
      (greatest : value ≤ (n.natAbs + m.natAbs : Nat)) := Numeral.readInt_ofInt least greatest
  have first := read n (by omega) (by omega)
  have second := read m (by omega) (by omega)
  rw [same, second] at first
  exact (Except.ok.inj first).symm

/-- A value of a document spells one integer. -/
theorem Spells.unique {n m : Int} {value : Json.Value} (first : Spells n value)
    (second : Spells m value) : n = m := by
  generalize same : value = other at second
  cases first with
  | number =>
    cases second with
    | number => exact Json.Number.integer.inj (Json.Value.number.inj same)
    | numeral => cases same
  | numeral =>
    cases second with
    | number => cases same
    | numeral => exact ofInt_injective (String.ofList_injective (Json.Value.string.inj same))

/-- Different integers of a type are written differently. -/
theorem wireOfInteger_injective {type : Scalar} {n m : Int} (holds : HoldsInteger type n)
    (holdsOther : HoldsInteger type m) (same : wireOfInteger type n = wireOfInteger type m) :
    n = m := by
  have shown := renderNumeric?_wire holds
  rw [same, renderNumeric?_wire holdsOther] at shown
  exact (showInteger_spells type n).unique
    (Option.some.inj shown ▸ showInteger_spells type m)

end SchemaRecords.Payload
