import SchemaRecords.Payload.Decoding
import SchemaRecords.Payload.Encoding
import SchemaRecords.Proofs.Bytes.WrittenBase64
import SchemaRecords.Proofs.Payload.RenderedIntegers
import SchemaRecords.Proofs.Schema.WellFormed

/-!
# Simple values and how they are shown

For every type but messages and floating-point numbers, a value of a document and a value on
the wire can stand for each other.  `Shown` lists the pairs.  Each side of a pair is what the
other one is turned into, and nothing else ever comes out of reading a payload or of
converting a document: so a value that was read can be written, and one that was written
can be read, without any further loss.
-/

namespace SchemaRecords.Payload

open SchemaRecords.Number
open SchemaRecords.Schema

/-! ## Types -/

/-- An enumeration in which names and numbers lead to each other: no name is declared twice,
and every number fits into 32 bits. -/
structure Named (enumeration : Enumeration) : Prop where
  distinct : (enumeration.values.map (·.name)).Nodup
  numbers : ∀ value ∈ enumeration.values, -2 ^ 31 ≤ value.number ∧ value.number < 2 ^ 31

/-- A type that is neither a message nor a floating-point number. -/
def IsSimple (pool : Pool) : ValueType → Prop
  | .scalar type => type ≠ .float ∧ type ≠ .double
  | .message _ => False
  | .enumeration id => ∃ enumeration, pool.enumeration? id = some enumeration ∧ Named enumeration

/-! ## Enumerations -/

theorem numberOf?_of_nameOf? {enumeration : Enumeration} (named : Named enumeration) {n : Int}
    {name : String} (found : enumeration.nameOf? n = some name) :
    enumeration.numberOf? name = some n := by
  rcases Option.map_eq_some_iff.mp found with ⟨value, first, same⟩
  have member := List.mem_reverse.mp (List.mem_of_find?_eq_some first)
  have number : value.number = n := by simpa using List.find?_some first
  cases second : enumeration.values.reverse.find? fun other => other.name = name with
  | none =>
    have absent := List.find?_eq_none.mp second value (List.mem_reverse.mpr member)
    exact absurd same (by simpa using absent)
  | some other =>
    have otherMember := List.mem_reverse.mp (List.mem_of_find?_eq_some second)
    have otherName : other.name = name := by simpa using List.find?_some second
    have equal : other = value :=
      List.inj_on_of_nodup_map named.distinct otherMember member (otherName.trans same.symm)
    rw [Enumeration.numberOf?, second, Option.map_some, equal, number]

theorem bounds_of_numberOf? {enumeration : Enumeration} (named : Named enumeration) {n : Int}
    {name : String} (found : enumeration.numberOf? name = some n) : -2 ^ 31 ≤ n ∧ n < 2 ^ 31 := by
  rcases Option.map_eq_some_iff.mp found with ⟨value, first, same⟩
  exact same ▸ named.numbers value (List.mem_reverse.mp (List.mem_of_find?_eq_some first))

theorem defaultNumber_bounds {enumeration : Enumeration}
    (numbers : ∀ value ∈ enumeration.values, -2 ^ 31 ≤ value.number ∧ value.number < 2 ^ 31) :
    -2 ^ 31 ≤ enumeration.defaultNumber ∧ enumeration.defaultNumber < 2 ^ 31 := by
  unfold Enumeration.defaultNumber
  split
  · decide
  · rename_i first rest values
    exact numbers first (values ▸ List.mem_cons_self)

theorem renderEnumeration_eq {pool : Pool} {id : EnumerationId} {enumeration : Enumeration}
    (found : pool.enumeration? id = some enumeration) (n : Int) :
    (∃ name, enumeration.nameOf? n = some name ∧
      renderEnumeration pool id n = .string name) ∨ renderEnumeration pool id n = .int n := by
  rw [renderEnumeration, found, Option.bind_some]
  cases enumeration.nameOf? n with
  | none => exact Or.inr rfl
  | some name => exact Or.inl ⟨name, rfl, rfl⟩

/-- A number that has no name is read back as a number. -/
theorem convertEnumeration_int {pool : Pool} {id : EnumerationId} {enumeration : Enumeration}
    (found : pool.enumeration? id = some enumeration) {n : Int}
    (bounds : -2 ^ 31 ≤ n ∧ n < 2 ^ 31) (field : String) :
    convertEnumeration pool field id (.int n) = .ok (.varint (.ofInt n)) := by
  have long : IntegerRange.signed64.holds n = true := by
    rw [holds_signed64]
    omega
  have read := readSigned_spelled 32 long bounds .number field (.enumeration id)
  rw [Json.Value.int] at read ⊢
  simp only [convertEnumeration, found, read]
  rfl

/-- Different numbers appear differently. -/
theorem renderEnumeration_injective {pool : Pool} {id : EnumerationId} {enumeration : Enumeration}
    (found : pool.enumeration? id = some enumeration) (named : Named enumeration) {n m : Int}
    (same : renderEnumeration pool id n = renderEnumeration pool id m) : n = m := by
  rcases renderEnumeration_eq found n with ⟨first, nameN, shownN⟩ | shownN <;>
    rcases renderEnumeration_eq found m with ⟨second, nameM, shownM⟩ | shownM <;>
    rw [shownN, shownM] at same
  · have equal : first = second := Json.Value.string.inj same
    have numberN := numberOf?_of_nameOf? named nameN
    rw [equal, numberOf?_of_nameOf? named nameM] at numberN
    exact (Option.some.inj numberN).symm
  · cases same
  · cases same
  · exact Json.Number.integer.inj (Json.Value.number.inj same)

/-! ## Pairs of a shown and a written value -/

/-- A value of a document and a value on the wire that stand for each other. -/
inductive Shown (pool : Pool) : ValueType → Json.Value → Wire.Value → Prop where
  | integer {type : Scalar} {n : Int} (holds : HoldsInteger type n) :
      Shown pool (.scalar type) (showInteger type n) (wireOfInteger type n)
  | bool (value : Bool) : Shown pool (.scalar .bool) (.bool value) (.varint (if value then 1 else 0))
  | string (text : String) :
      Shown pool (.scalar .string) (.string text) (.delimited (Text.Utf8.encode text))
  | bytes (content : Bytes) : Shown pool (.scalar .bytes) (renderBytes content) (.delimited content)
  | enumeration {id : EnumerationId} {enumeration : Enumeration} {n : Int}
      (found : pool.enumeration? id = some enumeration) (named : Named enumeration)
      (bounds : -2 ^ 31 ≤ n ∧ n < 2 ^ 31) :
      Shown pool (.enumeration id) (renderEnumeration pool id n) (.varint (.ofInt n))

namespace Shown

variable {pool : Pool} {type : ValueType} {value : Json.Value} {wire : Wire.Value}

/-- The shown value is written as its partner. -/
theorem convert (shown : Shown pool type value wire) (field : String) :
    convertSimple pool field type value = .ok wire := by
  cases shown with
  | integer holds => exact convertScalar_spelled holds (showInteger_spells _ _) field
  | bool value => rfl
  | string text => rfl
  | bytes content =>
    simp only [convertSimple, convertScalar, renderBytes, Bytes.Base64.decodeAny?_text]
  | enumeration found named bounds =>
    rename_i id enumeration n
    rcases renderEnumeration_eq found n with ⟨name, itsName, shown⟩ | shown
    · simp only [convertSimple, convertEnumeration, found, shown, numberOf?_of_nameOf? named itsName]
    · rw [shown, convertSimple, convertEnumeration_int found bounds]

/-- The written value is shown as its partner. -/
theorem read (shown : Shown pool type value wire) (decoder : Decoder) (message field : String) :
    readValue? pool decoder message field type wire = some (.ok value) := by
  cases shown with
  | integer holds =>
    rename_i type n
    have rendered := renderNumeric?_wire holds
    have general : readValue? pool decoder message field (.scalar type) (wireOfInteger type n) =
        (renderNumeric? type (wireOfInteger type n)).map .ok := by
      cases type
      case double | float | bool | string | bytes => exact absurd holds id
      all_goals rfl
    rw [general, rendered]
    rfl
  | bool value => cases value <;> rfl
  | string text => simp only [readValue?, Text.Utf8.decode?_encode]
  | bytes content => rfl
  | enumeration found named bounds =>
    rename_i id enumeration n
    have same : signed 32 (UInt64.ofInt n).toNat = n := by
      have word := toNat_ofInt64 n
      exact signed_narrow (by omega) bounds.1 bounds.2
    simp only [readValue?, renderPackable?, same, Option.map_some]

theorem layout (shown : Shown pool type value wire) : wire.layout = type.layout := by
  cases shown with
  | integer holds => exact layout_wireOfInteger holds
  | _ => rfl

theorem notNull (shown : Shown pool type value wire) : value.isNull = false := by
  cases shown with
  | integer holds => exact (showInteger_spells _ _).notNull
  | enumeration found named bounds =>
    rename_i id enumeration n
    rcases renderEnumeration_eq found n with ⟨name, _, shown⟩ | shown <;> rw [shown] <;> rfl
  | _ => rfl

end Shown

/-! ## Zero -/

theorem sameSimple_string (first second : String) :
    sameSimple (.string first) (.string second) = decide (first = second) := rfl

theorem encode_eq_nil_iff (text : String) : Text.Utf8.encode text = [] ↔ text = "" := by
  constructor
  · intro empty
    have read := Text.Utf8.decode?_encode text
    rw [empty, show ([] : Bytes) = Text.Utf8.encode "" from rfl, Text.Utf8.decode?_encode] at read
    exact (Option.some.inj read).symm
  · intro empty
    rw [empty]
    rfl

theorem sameSimple_renderEnumeration {pool : Pool} {id : EnumerationId} {enumeration : Enumeration}
    (found : pool.enumeration? id = some enumeration) (named : Named enumeration) (n m : Int) :
    sameSimple (renderEnumeration pool id n) (renderEnumeration pool id m) = decide (n = m) := by
  by_cases equal : n = m
  · rw [equal, decide_eq_true rfl]
    rcases renderEnumeration_eq found m with ⟨name, _, shown⟩ | shown <;> rw [shown]
    · exact decide_eq_true rfl
    · exact decide_eq_true rfl
  · rw [decide_eq_false equal]
    have different : renderEnumeration pool id n ≠ renderEnumeration pool id m := fun same =>
      equal (renderEnumeration_injective found named same)
    rcases renderEnumeration_eq found n with ⟨first, _, shownN⟩ | shownN <;>
      rcases renderEnumeration_eq found m with ⟨second, _, shownM⟩ | shownM <;>
      rw [shownN, shownM] at different ⊢
    · exact decide_eq_false fun same => different (congrArg Json.Value.string same)
    · rfl
    · rfl
    · exact decide_eq_false fun same => different (congrArg Json.Value.number same)

/-- A shown value is the default of its type exactly if its partner has no bit set, unless
an enumeration counts another number than zero as its default. -/
theorem Shown.default {pool : Pool} {type : ValueType} {value : Json.Value} {wire : Wire.Value}
    (shown : Shown pool type value wire)
    (zeroFirst : ∀ id enumeration, type = .enumeration id →
      pool.enumeration? id = some enumeration → enumeration.defaultNumber = 0) :
    isDefault pool type value = isZero wire := by
  cases shown with
  | integer holds => rw [isDefault_showInteger pool holds, isZero_wireOfInteger holds]
  | bool value => cases value <;> rfl
  | string text =>
    simp only [isDefault, renderDefault, sameSimple_string, isZero, encode_eq_nil_iff]
  | bytes content =>
    simp only [isDefault, renderDefault, renderBytes, sameSimple_string, isZero,
      Bytes.Base64.text_eq_empty_iff]
  | enumeration found named bounds =>
    rename_i id enumeration n
    have zero : isZero (wireOfInteger .int32 n) = decide (n = 0) := isZero_wireOfInteger bounds
    simp only [isDefault, renderDefault, found, Option.elim, zeroFirst id enumeration rfl found,
      sameSimple_renderEnumeration found named]
    exact zero.symm

/-! ## What is read and what is converted -/

theorem readValue?_integer {type : Scalar} (integer : isIntegerType type = true) (pool : Pool)
    (decoder : Decoder) (message field : String) (wire : Wire.Value) :
    readValue? pool decoder message field (.scalar type) wire =
      (renderNumeric? type wire).map .ok := by
  cases type
  case double | float | bool | string | bytes => cases integer
  all_goals rfl

/-- Whatever is read as a simple value has a partner. -/
theorem exists_of_readValue? {pool : Pool} {type : ValueType} (simple : IsSimple pool type)
    {decoder : Decoder} {message field : String} {wire : Wire.Value} {value : Json.Value}
    (read : readValue? pool decoder message field type wire = some (.ok value)) :
    ∃ written, Shown pool type value written := by
  cases type with
  | message id => cases simple
  | enumeration id =>
    rcases simple with ⟨enumeration, found, named⟩
    cases wire with
    | varint word =>
      have same := Except.ok.inj (Option.some.inj read)
      exact same ▸ ⟨_, .enumeration found named (signed_bounds 32 (by decide) word.toNat)⟩
    | _ => cases read
  | scalar type =>
    by_cases integer : isIntegerType type = true
    · rw [readValue?_integer integer] at read
      rcases Option.map_eq_some_iff.mp read with ⟨rendered, itsRendering, same⟩
      rcases exists_of_renderNumeric? integer itsRendering with ⟨n, holds, shown⟩
      rw [← Except.ok.inj same, shown]
      exact ⟨_, .integer holds⟩
    · cases type
      case double => exact absurd rfl simple.2
      case float => exact absurd rfl simple.1
      case bool =>
        cases wire with
        | varint word =>
          have same := Except.ok.inj (Option.some.inj read)
          exact same ▸ ⟨_, .bool _⟩
        | _ => cases read
      case string =>
        cases wire with
        | delimited content =>
          simp only [readValue?] at read
          split at read
          · cases read
            exact ⟨_, .string _⟩
          · cases read
        | _ => cases read
      case bytes =>
        cases wire with
        | delimited content =>
          have same := Except.ok.inj (Option.some.inj read)
          exact same ▸ ⟨_, .bytes content⟩
        | _ => cases read
      all_goals exact absurd rfl integer

/-- Whatever is converted to a simple value has a partner. -/
theorem exists_of_convertSimple {pool : Pool} {type : ValueType} (simple : IsSimple pool type)
    {field : String} {document : Json.Value} {wire : Wire.Value}
    (converted : convertSimple pool field type document = .ok wire) :
    ∃ value, Shown pool type value wire := by
  cases type with
  | message id => cases simple
  | enumeration id =>
    rcases simple with ⟨enumeration, found, named⟩
    simp only [convertSimple, convertEnumeration, found] at converted
    split at converted
    · split at converted
      · rename_i number itsNumber
        cases converted
        exact ⟨_, .enumeration found named (bounds_of_numberOf? named itsNumber)⟩
      · cases converted
    · rcases Outcome.map_eq_ok_iff.mp converted with ⟨n, read, same⟩
      exact same ▸ ⟨_, .enumeration found named (readSigned_eq_ok_iff.mp read).1⟩
    · cases converted
  | scalar type =>
    by_cases integer : isIntegerType type = true
    · rcases exists_of_convertScalar integer converted with ⟨n, holds, same⟩
      exact same ▸ ⟨_, .integer holds⟩
    · cases type
      case double => exact absurd rfl simple.2
      case float => exact absurd rfl simple.1
      case bool =>
        cases document with
        | bool value =>
          cases converted
          exact ⟨_, .bool value⟩
        | _ => cases converted
      case string =>
        cases document with
        | string text =>
          cases converted
          exact ⟨_, .string text⟩
        | _ => cases converted
      case bytes =>
        cases document with
        | string text =>
          simp only [convertSimple, convertScalar] at converted
          split at converted
          · cases converted
            exact ⟨_, .bytes _⟩
          · cases converted
        | _ => cases converted
      all_goals exact absurd rfl integer

/-! ## Keys of maps -/

theorem keyText_of_spells {n : Int} {value : Json.Value} (spells : Spells n value) :
    keyText value = String.ofList (Numeral.ofInt n) := by
  cases spells <;> rfl

theorem keyValue_integer {type : Scalar} (integer : isIntegerType type = true) (text : String) :
    keyValue (.scalar type) text = .string text := by
  cases type
  case double | float | bool | string | bytes => cases integer
  all_goals rfl

theorem isIntegerType_of_holds {type : Scalar} {n : Int} (holds : HoldsInteger type n) :
    isIntegerType type = true := by
  cases type
  case double | float | bool | string | bytes => exact absurd holds id
  all_goals rfl

/-- The text of a shown key is converted to the partner of the key. -/
theorem Shown.key {pool : Pool} {type : Scalar} {value : Json.Value} {wire : Wire.Value}
    (shown : Shown pool (.scalar type) value wire) (legal : type.isMapKey = true) (field : String) :
    convertSimple pool field (.scalar type) (keyValue (.scalar type) (keyText value)) =
      .ok wire := by
  cases shown with
  | integer holds =>
    rename_i n
    rw [keyValue_integer (isIntegerType_of_holds holds), keyText_of_spells (showInteger_spells _ n)]
    exact convertScalar_spelled holds .numeral field
  | bool value => cases value <;> rfl
  | string text => rfl
  | bytes content => cases legal

/-- A key of a document is shown as it stands, unless it is an integer, which is shown as its
numeral. -/
theorem exists_of_convertKey {pool : Pool} {type : Scalar} (legal : type.isMapKey = true)
    {field text : String} {wire : Wire.Value}
    (converted : convertSimple pool field (.scalar type) (keyValue (.scalar type) text) = .ok wire) :
    ∃ value, Shown pool (.scalar type) value wire ∧
      (isIntegerType type = false ∧ keyText value = text ∨
        isIntegerType type = true ∧ ∃ n, keyText value = String.ofList (Numeral.ofInt n) ∧
          Denotes text n) := by
  by_cases integer : isIntegerType type = true
  · rw [keyValue_integer integer] at converted
    rcases denotes_of_convertScalar integer converted with ⟨n, holds, same, denotes⟩
    exact same ▸ ⟨_, .integer holds, Or.inr ⟨integer, n,
      keyText_of_spells (showInteger_spells type n), denotes⟩⟩
  · cases type
    case bool =>
      unfold keyValue at converted
      split at converted
      · cases converted
        exact ⟨_, .bool true, Or.inl ⟨rfl, rfl⟩⟩
      · cases converted
        exact ⟨_, .bool false, Or.inl ⟨rfl, rfl⟩⟩
      · cases converted
    case string =>
      cases converted
      exact ⟨_, .string text, Or.inl ⟨rfl, rfl⟩⟩
    case double | float | bytes => cases legal
    all_goals exact absurd rfl integer

end SchemaRecords.Payload
