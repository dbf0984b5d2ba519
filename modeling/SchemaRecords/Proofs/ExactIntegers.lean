import SchemaRecords.Proofs.Number.WholeDoubles
import SchemaRecords.Proofs.Payload.OwnRecords
import SchemaRecords.Proofs.Schema.GivenCharacters
import SchemaRecords.Proofs.Schema.LinkedUnits

/-!
# Integers are encoded exactly

A number of a document is an integer or a double, and a double stands for one rational number.  A
field of an integer type takes those numbers that are integers of its type and refuses all others,
and what it takes comes back as the same integer.

For the types of 64 bits the bound is a double too, and it is one above the greatest integer.  A
double of this size is not refused.  The greatest integer is written in its place, so what comes
back is not what the document said.
-/

namespace SchemaRecords
namespace Payload

open SchemaRecords.Number
open SchemaRecords.Schema

/-! ## Numbers of a document -/

/-- The rational number that a number of a document stands for. -/
def numberValue? : Json.Number → Option ℚ
  | .integer n => some n
  | .real x => x.value?

/-- A double that is one above the greatest integer of a range. -/
def OneAbove (range : IntegerRange) (number : Json.Number) : Prop :=
  ∃ x : Double, number = .real x ∧ x.value? = some ((range.greatest + 1 : Int) : ℚ)

/-- The range of the integers of 64 bits that a type holds all of. -/
def longRange? : Scalar → Option IntegerRange
  | .int64 | .sint64 | .sfixed64 => some .signed64
  | .uint64 | .fixed64 => some .unsigned64
  | _ => none

/-- A double that is one above the greatest integer of a type of 64 bits. -/
def JustBeyond (type : Scalar) (number : Json.Number) (greatest : Int) : Prop :=
  ∃ range, longRange? type = some range ∧ range.greatest = greatest ∧ OneAbove range number

/-- An integer that is taken for a number: the number itself, or the greatest integer for the
double behind it. -/
def Takes (type : Scalar) (number : Json.Number) (n : Int) : Prop :=
  HoldsInteger type n ∧ numberValue? number = some ↑n ∨ JustBeyond type number n

/-- What is read of a number is the integer that it is, except just above the range. -/
theorem readLong_number_iff {range other : IntegerRange} (proper : range.least ≤ range.greatest)
    {field : String} {type : ValueType} {number : Json.Number} {n : Int} :
    readLong range other field type (.number number) = .ok n ↔
      (range.least ≤ n ∧ n ≤ range.greatest) ∧ numberValue? number = some ↑n ∨
        n = range.greatest ∧ OneAbove range number := by
  cases number with
  | integer m =>
    have notReal : ¬ OneAbove range (.integer m) := by
      rintro ⟨_, impossible, _⟩
      cases impossible
    have same : numberValue? (.integer m) = some (n : ℚ) ↔ m = n := by
      rw [numberValue?, Option.some.injEq, Int.cast_inj]
    rw [same]
    simp only [readLong, notReal, and_false, or_false]
    split
    · rename_i holds
      rw [holds_iff] at holds
      constructor
      · intro read
        cases read
        exact ⟨holds, rfl⟩
      · rintro ⟨_, same⟩
        rw [same]
    · rename_i outside
      rw [holds_iff] at outside
      constructor
      · intro impossible
        cases impossible
      · rintro ⟨holds, same⟩
        exact absurd (same ▸ holds) outside
  | real x =>
    have above : OneAbove range (.real x) ↔ x.integer? = some (range.greatest + 1) := by
      rw [Double.integer?_eq_some_iff]
      constructor
      · rintro ⟨_, same, value⟩
        cases same
        exact value
      · exact fun value => ⟨x, rfl, value⟩
    rw [above, show numberValue? (.real x) = x.value? from rfl, ← Double.integer?_eq_some_iff]
    simp only [readLong]
    cases x.integer? with
    | none => simp [mismatch]
    | some m =>
      dsimp only
      simp only [Option.some.injEq]
      split
      · rw [Except.ok.injEq]
        omega
      · rename_i outside
        constructor
        · intro impossible
          cases impossible
        · omega

theorem map_readUnsigned_eq_ok_iff {width : Nat} {field : String} {type : ValueType}
    {value : Json.Value} {f : Nat → Wire.Value} {wire : Wire.Value} :
    (readUnsigned width field type value).map f = .ok wire ↔
      ∃ n : Int, (n < 2 ^ width ∧ readLong .unsigned64 .signed64 field type value = .ok n) ∧
        f n.toNat = wire := by
  have power : ((2 ^ width : Nat) : Int) = 2 ^ width := Int.natCast_pow 2 width
  simp only [Outcome.map_eq_ok_iff, readUnsigned_eq_ok_iff]
  constructor
  · rintro ⟨n, ⟨small, long⟩, isWire⟩
    exact ⟨n, ⟨by omega, long⟩, isWire⟩
  · rintro ⟨n, ⟨small, long⟩, isWire⟩
    have nonneg := Int.toNat_of_nonneg (readLong_nonneg long)
    exact ⟨n.toNat, ⟨by omega, nonneg.symm ▸ long⟩, isWire⟩

section Types

variable {type : Scalar} {number : Json.Number} {n : Int}

theorem takes_of_narrow (narrow : longRange? type = none) :
    Takes type number n ↔ HoldsInteger type n ∧ numberValue? number = some ↑n := by
  refine or_iff_left ?_
  rintro ⟨range, impossible, _⟩
  rw [narrow] at impossible
  cases impossible

theorem takes_of_wide {range : IntegerRange} (wide : longRange? type = some range) :
    Takes type number n ↔ HoldsInteger type n ∧ numberValue? number = some ↑n ∨
      n = range.greatest ∧ OneAbove range number := by
  refine or_congr_right ⟨?_, ?_⟩
  · rintro ⟨other, same, greatest, above⟩
    rw [wide] at same
    cases same
    exact ⟨greatest.symm, above⟩
  · rintro ⟨greatest, above⟩
    exact ⟨range, wide, greatest.symm, above⟩

end Types

/-- A number is converted to an integer type exactly if an integer is taken for it. -/
theorem convertScalar_number_iff {type : Scalar} (integer : isIntegerType type = true)
    {field : String} {number : Json.Number} {wire : Wire.Value} :
    convertScalar field type (.number number) = .ok wire ↔
      ∃ n, Takes type number n ∧ wireOfInteger type n = wire := by
  have leastSigned : IntegerRange.signed64.least = -2 ^ 63 := rfl
  have greatestSigned : IntegerRange.signed64.greatest = 2 ^ 63 - 1 := rfl
  have leastUnsigned : IntegerRange.unsigned64.least = 0 := rfl
  have greatestUnsigned : IntegerRange.unsigned64.greatest = 2 ^ 64 - 1 := rfl
  cases type
  case int32 | sint32 | sfixed32 =>
    rw [convertScalar, Outcome.map_eq_ok_iff]
    refine exists_congr fun n => and_congr_left fun _ => ?_
    rw [readSigned_eq_ok_iff, readLong_number_iff (by decide), takes_of_narrow rfl, leastSigned,
      greatestSigned]
    simp only [HoldsInteger]
    grind
  case int64 | sint64 | sfixed64 =>
    rw [convertScalar, Outcome.map_eq_ok_iff]
    refine exists_congr fun n => and_congr_left fun _ => ?_
    rw [readSigned_eq_ok_iff, readLong_number_iff (by decide), takes_of_wide rfl, leastSigned,
      greatestSigned]
    simp only [HoldsInteger]
    grind
  case uint32 | fixed32 =>
    rw [convertScalar, map_readUnsigned_eq_ok_iff]
    refine exists_congr fun n => and_congr_left fun _ => ?_
    rw [readLong_number_iff (by decide), takes_of_narrow rfl, leastUnsigned, greatestUnsigned]
    simp only [HoldsInteger]
    grind
  case uint64 | fixed64 =>
    rw [convertScalar, map_readUnsigned_eq_ok_iff]
    refine exists_congr fun n => and_congr_left fun _ => ?_
    rw [readLong_number_iff (by decide), takes_of_wide rfl, leastUnsigned, greatestUnsigned]
    simp only [HoldsInteger]
    grind
  all_goals cases integer

/-- What is taken for a number is an integer of the type. -/
theorem Takes.holds {type : Scalar} {number : Json.Number} {n : Int}
    (takes : Takes type number n) : HoldsInteger type n := by
  rcases takes with ⟨holds, _⟩ | ⟨range, wide, same, _⟩
  · exact holds
  · subst same
    cases type
    case int64 | sint64 | sfixed64 =>
      cases wide
      exact ⟨by decide, by decide⟩
    case uint64 | fixed64 =>
      cases wide
      exact ⟨by decide, by decide⟩
    all_goals cases wide

/-- The double just above the greatest integer is no integer of the type. -/
theorem JustBeyond.outside {type : Scalar} {number : Json.Number} {greatest : Int}
    (beyond : JustBeyond type number greatest) :
    numberValue? number = some ((greatest + 1 : Int) : ℚ) ∧ ¬ HoldsInteger type (greatest + 1) := by
  rcases beyond with ⟨range, wide, same, x, isReal, value⟩
  subst same isReal
  refine ⟨value, ?_⟩
  cases type
  case int64 | sint64 | sfixed64 =>
    cases wide
    exact fun holds => absurd holds.2 (by decide)
  case uint64 | fixed64 =>
    cases wide
    exact fun holds => absurd holds.2 (by decide)
  all_goals cases wide

/-! ## Fields of integer types -/

/-- A number is written as an integer that is read back, by itself and as the value of a field. -/
structure CarriesInteger (pool : Pool) (name : String) (field : Field) (type : Scalar)
    (number : Json.Number) (n : Int) : Prop where
  value : ∃ wire shown, Spells n shown ∧
    (∀ text, convert pool text (.scalar type) (.number number) = .ok wire) ∧
    ∀ decoder message text,
      readValue? pool decoder message text (.scalar type) wire = some (.ok shown)
  payload : ∃ payload shown, Spells n shown ∧
    encode pool name (.object [(field.name, .number number)]) = .ok payload ∧
    decode pool .plain name payload =
      .ok (.object (if field.hasPresence = false ∧ n = 0 then [] else [(field.name, shown)]))

section Fields

variable {pool : Pool} {name : String} {message : Message} {field : Field} {type : Scalar}
  {explicit : Bool} {number : Json.Number} {n : Int}

theorem exists_convert_iff (integer : isIntegerType type = true) (text : String) :
    (∃ wire, convert pool text (.scalar type) (.number number) = .ok wire) ↔
      ∃ n, Takes type number n := by
  constructor
  · rintro ⟨wire, converted⟩
    rcases (convertScalar_number_iff integer).mp converted with ⟨n, takes, _⟩
    exact ⟨n, takes⟩
  · rintro ⟨n, takes⟩
    exact ⟨_, (convertScalar_number_iff integer).mpr ⟨n, takes, rfl⟩⟩

/-- A field of an integer type accepts a number if it is converted. -/
theorem exists_encode_iff (found : pool.findMessage? name = some message)
    (indexed : message.Indexed) (member : field ∈ message.fields)
    (shape : field.shape = .singular (.scalar type) explicit) :
    (∃ payload, encode pool name (.object [(field.name, .number number)]) = .ok payload) ↔
      ∃ wire, convert pool field.name (.scalar type) (.number number) = .ok wire := by
  rw [encode_object found,
    encodeMembers_singleton indexed (indexed.fieldByName?_of_mem member) rfl]
  constructor
  · rintro ⟨payload, written⟩
    rcases exists_of_valueRecords_single shape written with ⟨wire, converted, _⟩
    exact ⟨wire, converted⟩
  · rintro ⟨wire, converted⟩
    rw [valueRecords, fieldRecords, shape]
    exact ⟨_, congrArg (singleRecord field) converted⟩

/-- The integer that is taken for a number is carried. -/
theorem Takes.carriesInteger (integer : isIntegerType type = true)
    (takes : Takes type number n) (found : pool.findMessage? name = some message)
    (indexed : message.Indexed) (member : field ∈ message.fields)
    (shape : field.shape = .singular (.scalar type) explicit) :
    CarriesInteger pool name field type number n := by
  have holds := takes.holds
  have shown : Shown pool (.scalar type) (showInteger type n) (wireOfInteger type n) :=
    .integer holds
  have converted (text : String) :
      convert pool text (.scalar type) (.number number) = .ok (wireOfInteger type n) :=
    (convertScalar_number_iff integer).mpr ⟨n, takes, rfl⟩
  have written : Written pool (.scalar type) (.number number) (wireOfInteger type n) :=
    ⟨rfl, shown.layout, converted⟩
  have encoded := encode_written shape found indexed member written
  rw [isZero_wireOfInteger holds] at encoded
  refine ⟨⟨_, _, showInteger_spells type n, converted, shown.read⟩, _, _,
    showInteger_spells type n, encoded, ?_⟩
  by_cases omitted : field.hasPresence = false ∧ n = 0
  · rw [if_pos omitted, if_pos (by simp [omitted])]
    exact decode_nil found indexed
  · have fits : (wireOfInteger type n).Fits := by cases type <;> exact trivial
    have kept : (field.hasPresence ||
        !isDefault pool (.scalar type) (showInteger type n)) = true := by
      rw [isDefault_showInteger pool holds]
      grind
    rw [if_neg omitted, if_neg (by grind),
      decode_writtenValues shape rfl found indexed member fits shown.reads, if_pos kept]

end Fields

end Payload

open Number Schema Payload

/-- Whatever was registered, a field of an integer type takes exactly the numbers that are integers
of its type and gives them back, except that a double just above the greatest integer of 64 bits
is taken too, and that integer comes back in its place. -/
theorem encode_integer (attempts : List (String × String)) {name : String} {message : Message}
    (found : (Pool.registerAll attempts).findMessage? name = some message) {field : Field}
    (member : field ∈ message.fields) {type : Scalar} {explicit : Bool}
    (shape : field.shape = .singular (.scalar type) explicit)
    (integer : isIntegerType type = true) (number : Json.Number) :
    ((∃ payload, encode (.registerAll attempts) name (.object [(field.name, .number number)]) =
        .ok payload) ↔
      (∃ n, HoldsInteger type n ∧ numberValue? number = some ↑n) ∨
        ∃ greatest, JustBeyond type number greatest) ∧
    (∀ text, (∃ wire, convert (.registerAll attempts) text (.scalar type) (.number number) =
        .ok wire) ↔
      ∃ payload, encode (.registerAll attempts) name (.object [(field.name, .number number)]) =
        .ok payload) ∧
    (∀ n, HoldsInteger type n → numberValue? number = some ↑n →
      CarriesInteger (.registerAll attempts) name field type number n) ∧
    ∀ greatest, JustBeyond type number greatest →
      numberValue? number = some ((greatest + 1 : Int) : ℚ) ∧ ¬ HoldsInteger type (greatest + 1) ∧
        CarriesInteger (.registerAll attempts) name field type number greatest := by
  rcases (Pool.wellFormed_registerAll attempts).exists_of_findMessage? found with ⟨id, there, _⟩
  have indexed := ((Pool.wellFormed_registerAll attempts).messages message
    (List.mem_of_getElem? there)).indexed
  refine ⟨?_, ?_, ?_, ?_⟩
  · rw [exists_encode_iff found indexed member shape, exists_convert_iff integer]
    exact exists_or
  · intro text
    rw [exists_encode_iff found indexed member shape, exists_convert_iff integer,
      exists_convert_iff integer]
  · intro n holds value
    exact Takes.carriesInteger integer (Or.inl ⟨holds, value⟩) found indexed member shape
  · intro greatest beyond
    rcases beyond.outside with ⟨value, outside⟩
    exact ⟨value, outside, Takes.carriesInteger integer (Or.inr beyond) found indexed member shape⟩

/-- A schema with integers of 64 bits. -/
def sampleAttempts : List (String × String) :=
  [("sample.proto", "message Sample\x7boptional int64 count=1;optional uint64 total=2;\x7d")]

/-- The greatest double below 2^64 is written and read exactly. -/
theorem encode_integer_total :
    ∃ message field, (Pool.registerAll sampleAttempts).findMessage? "Sample" = some message ∧
      field ∈ message.fields ∧ field.shape = .singular (.scalar .uint64) true ∧
      CarriesInteger (.registerAll sampleAttempts) "Sample" field .uint64
        (.real ⟨0x43efffffffffffff⟩) 18446744073709549568 := by
  have isField : ((Pool.registerAll sampleAttempts).findMessage? "Sample").bind (fun message =>
      message.fields[1]?.map (·.shape)) = some (.singular (.scalar .uint64) true) := by
    rw [sampleAttempts, Pool.registerAll_ofList]
    decide +kernel
  have isInteger : (Double.mk 0x43efffffffffffff).integer? = some 18446744073709549568 := by
    decide +kernel
  rcases Option.bind_eq_some_iff.mp isField with ⟨message, found, second⟩
  rcases Option.map_eq_some_iff.mp second with ⟨field, there, shape⟩
  have member := List.mem_of_getElem? there
  have holds : HoldsInteger .uint64 18446744073709549568 := ⟨by decide, by decide⟩
  rcases encode_integer sampleAttempts found member shape rfl (.real ⟨0x43efffffffffffff⟩) with
    ⟨_, _, exact, _⟩
  exact ⟨message, field, found, member, shape,
    exact _ holds ((Double.integer?_eq_some_iff _ _).mp isInteger)⟩

/-- The double 2^63 is taken for a signed integer of 64 bits, and another one comes back. -/
theorem encode_integer_count :
    numberValue? (.real ⟨0x43e0000000000000⟩) = some ((2 ^ 63 : Int) : ℚ) ∧
      ¬ HoldsInteger .int64 (2 ^ 63) ∧
      encode (.registerAll sampleAttempts) "Sample"
          (.object [("count", .number (.real ⟨0x43e0000000000000⟩))]) =
        .ok [8, 255, 255, 255, 255, 255, 255, 255, 255, 127] ∧
      (decode (.registerAll sampleAttempts) .plain "Sample"
          [8, 255, 255, 255, 255, 255, 255, 255, 255, 127]).toOption.map (·.text) =
        some "\x7b\"count\":\"9223372036854775807\"\x7d" := by
  have isInteger : (Double.mk 0x43e0000000000000).integer? = some (2 ^ 63) := by decide +kernel
  exact ⟨(Double.integer?_eq_some_iff _ _).mp isInteger, fun holds => absurd holds.2 (by decide),
    by decide +kernel, by decide +kernel⟩

end SchemaRecords
