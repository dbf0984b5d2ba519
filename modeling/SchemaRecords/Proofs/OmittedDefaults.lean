import SchemaRecords.Proofs.Payload.ConvertedFields
import SchemaRecords.Proofs.Payload.DefaultValues
import SchemaRecords.Proofs.Payload.OwnRecords
import SchemaRecords.Proofs.Schema.FieldKinds
import SchemaRecords.Proofs.Schema.GivenCharacters
import SchemaRecords.Proofs.Wire.ReadVarints

/-!
# Defaults that are left out

A field without presence is left out of a payload if its value has no bit set, and out of a document
if its value is shown as the default of its type.  The two tests are made on different sides of the
wire, on different data, and yet a field of a scalar type is left out of the one exactly where it is
left out of the other.  A field of an enumeration need not be: its default is the value that is
declared first, and nothing makes this value the zero.
-/

namespace SchemaRecords
namespace Payload

open SchemaRecords.Number SchemaRecords.Schema

/-! ## Fields without presence -/

/-- The last value in the records of a field that is laid out as its type says. -/
def lastValue? (field : Field) (payload : Bytes) : Option Wire.Value :=
  ((valuesNumbered field.number payload).filter fun wire =>
    wire.layout = field.type.layout).getLast?

/-- A decoder that does not ask for defaults leaves the last value of a field out of a document
exactly if an encoder leaves what is shown of it out of a payload. -/
def OmitsAlike (pool : Pool) (name : String) (message : Message) (field : Field) : Prop :=
  ∀ wire shown, Reads pool refuse field.type wire shown →
    ∀ options : Options, options.emitDefaults = false → KeyIsOwn options message field →
    ∀ payload members, decode pool options name payload = .ok (.object members) →
      lastValue? field payload = some wire →
    ∀ key document written, message.fieldByName? key = some field → (key, shown) ∈ document →
      encode pool name (.object document) = .ok written → written.length < 2 ^ 32 →
      (members.lookup (options.key field) = none ↔ recordsNumbered field.number written = [])

/-- A field without presence is in no oneof and holds no message. -/
theorem of_hasPresence_eq_false {field : Field} {type : ValueType} {explicit : Bool}
    (shape : field.shape = .singular type explicit) (noPresence : field.hasPresence = false) :
    field.oneof = none ∧ type.isMessage = false := by
  rw [Field.hasPresence, shape] at noPresence
  dsimp only at noPresence
  rw [Bool.or_eq_false_iff, Bool.or_eq_false_iff] at noPresence
  exact ⟨Option.isNone_iff_eq_none.mp (Option.isSome_eq_false_iff.mp noPresence.1.2), noPresence.2⟩

/-- Where all others are passed over, the last element of a kind is the last one that is taken. -/
theorem getLast?_filterMap {α β : Type} {g : α → Option β} {p : α → Bool} {list : List α}
    {last : α} {value : β} (others : ∀ element, p element = false → g element = none)
    (isLast : (list.filter p).getLast? = some last) (taken : g last = some value) :
    (list.filterMap g).getLast? = some value := by
  have kept : list.filterMap g = (list.filter p).filterMap g := by
    rw [List.filterMap_filter]
    apply List.filterMap_congr
    intro element _
    split
    · rfl
    · rename_i other
      exact others element (Bool.eq_false_iff.mpr other)
  rcases List.getLast?_eq_some_iff.mp isLast with ⟨before, same⟩
  rw [kept, same, List.filterMap_append, List.filterMap_cons_some taken, List.filterMap_nil,
    List.getLast?_concat]

/-- A varint is written for a field in a few bytes. -/
theorem length_writtenValues_varint (field : Field) (word : UInt64) :
    (writtenValues field [.varint word]).length < 2 ^ 32 := by
  have tag : (Wire.Tag.encode ⟨field.number, .value .varint⟩).length ≤ 5 :=
    Wire.Varint.length_encode_le ((Nat.mod_lt _ (by decide)).trans (by decide))
  have digits : (Wire.Varint.encode word.toNat).length ≤ 10 :=
    Wire.Varint.length_encode_le (word.toNat_lt.trans (by decide))
  have whole : writtenValues field [.varint word] =
      Wire.Tag.encode ⟨field.number, .value .varint⟩ ++ Wire.Varint.encode word.toNat := by
    rw [writtenValues, List.map_singleton, Wire.Record.encodeAll_cons]
    exact List.append_nil _
  rw [whole, List.length_append]
  omega

theorem lastValue?_writtenValues {message : Message} {field : Field} {wire : Wire.Value}
    (indexed : message.Indexed) (member : field ∈ message.fields)
    (layout : wire.layout = field.type.layout) (fits : wire.Fits) :
    lastValue? field (writtenValues field [wire]) = some wire := by
  have fitsOnly : ∀ other ∈ message.fields, ∀ value ∈ only field [wire] other, value.Fits :=
    fun other _ => forall_only (P := fun _ wires => ∀ value ∈ wires, value.Fits)
      (List.forall_mem_singleton.mpr fits) (fun _ => List.forall_mem_nil _) other
  have kept : [wire].filter (fun wire => wire.layout = field.type.layout) = [wire] :=
    List.filter_cons_of_pos (decide_eq_true layout)
  rw [lastValue?, ← writtenFields_only indexed member,
    valuesNumbered_writtenFields indexed fitsOnly member, only_self, kept, List.getLast?_singleton]

section Fields

variable {pool : Pool} {name : String} {message : Message} {field : Field} {type : ValueType}
  {explicit : Bool} {wire : Wire.Value} {shown : Json.Value}
  (shape : field.shape = .singular type explicit) (noPresence : field.hasPresence = false)
  (found : pool.findMessage? name = some message) (indexed : message.Indexed)
  (member : field ∈ message.fields)

include shape noPresence found indexed

include member in
/-- A decoder shows the last value of a field unless it is the default. -/
theorem lookup_of_lastValue? (reads : Reads pool refuse type wire shown) {options : Options}
    (sparse : options.emitDefaults = false) (own : KeyIsOwn options message field)
    {payload : Bytes} {members : Json.Members}
    (decoded : decode pool options name payload = .ok (.object members))
    (last : lastValue? field payload = some wire) :
    members.lookup (options.key field) =
      if isDefault pool type shown then none else some shown := by
  rcases of_hasPresence_eq_false shape noPresence with ⟨alone, notMessage⟩
  rw [decode_of_findMessage? found] at decoded
  rcases exists_of_decodeLevel_own indexed member alone own decoded with ⟨others, same, value, _⟩
  cases same
  have isType : field.type = type := Field.type_of_shape shape
  -- Values of another layout are passed over, so the last of its own layout is the last one taken.
  have isLast := getLast?_filterMap
    (g := fun wire => (readValue? pool (decodeWithin pool options (nestingLimit - 1))
      message.fullName field.name type wire).bind Except.toOption)
    (fun wire other => by
      rw [readValue?_of_layout_ne (isType ▸ of_decide_eq_false other)]
      rfl) last
    (by
      rw [readValue?_of_notMessage notMessage _ refuse, reads]
      rfl)
  rw [fieldValue_single shape notMessage sparse, valuesOf_contributionsOf shape notMessage,
    noPresence, isLast, Option.filter_some] at value
  rw [← Except.ok.inj value]
  cases isDefault pool type shown <;> rfl

/-- An encoder writes what is given for a field unless it has no bit set. -/
theorem recordsNumbered_of_encode (written : Written pool type shown wire) {key : String}
    {document : Json.Members} {payload : Bytes} (named : message.fieldByName? key = some field)
    (there : (key, shown) ∈ document)
    (encoded : encode pool name (.object document) = .ok payload)
    (short : payload.length < 2 ^ 32) :
    recordsNumbered field.number payload =
      if isZero wire then [] else [⟨field.number, some wire⟩] := by
  rw [encode_object found] at encoded
  rcases exists_writtenFields indexed encoded with ⟨wires, rfl, converted⟩
  have own := converted field shown (mem_givenFields.mpr ⟨written.notNull, key, there, named⟩)
  unfold FieldConverted at own
  rw [shape] at own
  rcases own with ⟨other, isConverted, isWires⟩
  cases Except.ok.inj ((written.convert field.name).symm.trans isConverted)
  rw [recordsNumbered_writtenFields indexed (fits_of_length_writtenFields short)
    (mem_of_fieldByName? named), isWires, noPresence]
  cases isZero wire <;> rfl

include member in
/-- A field omits alike if the two tests agree on everything that it shows. -/
theorem omitsAlike_of_sameDefault (known : pool.HasType type)
    (agree : ∀ wire shown, Reads pool refuse type wire shown → SameDefault pool type shown) :
    OmitsAlike pool name message field := by
  intro wire shown reads options sparse own payload members decoded last key document written named
    there encoded short
  rw [Field.type_of_shape shape] at reads
  have notMessage := (of_hasPresence_eq_false shape noPresence).2
  rcases writable_of_readValue? known notMessage (reads "" "") with ⟨zero, isWritten⟩
  rw [lookup_of_lastValue? shape noPresence found indexed member reads sparse own decoded last,
    recordsNumbered_of_encode shape noPresence found indexed isWritten named there encoded short,
    agree wire shown reads zero isWritten]
  cases isZero zero <;> simp

include member in
/-- A field that omits alike has the two tests agree on what it shows of a value. -/
theorem sameDefault_of_omitsAlike (alike : OmitsAlike pool name message field)
    (reads : Reads pool refuse type wire shown) (fits : wire.Fits)
    (short : ∀ written, Written pool type shown written →
      (writtenValues field [written]).length < 2 ^ 32) : SameDefault pool type shown := by
  intro written isWritten
  have notMessage := (of_hasPresence_eq_false shape noPresence).2
  have decoded := decode_writtenValues shape notMessage found indexed member fits reads
  have layout := reads.layout.trans
    (congrArg ValueType.layout (Field.type_of_shape shape)).symm
  have last := lastValue?_writtenValues indexed member layout fits
  have encoded := encode_written shape found indexed member isWritten
  have encodedShort : (writtenValues field
      (if !field.hasPresence && isZero written then [] else [written])).length < 2 ^ 32 := by
    split
    · exact Nat.two_pow_pos 32
    · exact short written isWritten
  have named := indexed.fieldByName?_of_mem member
  have own := KeyIsOwn.plain message field
  have same := alike wire shown (Field.type_of_shape shape ▸ reads) .plain rfl own _ _ decoded last
    field.name _ _ named List.mem_cons_self encoded encodedShort
  rw [lookup_of_lastValue? shape noPresence found indexed member reads rfl own decoded last,
    recordsNumbered_of_encode shape noPresence found indexed isWritten named List.mem_cons_self
      encoded encodedShort] at same
  exact Bool.eq_iff_iff.mpr (by simpa using same)

include member in
/-- Of an enumeration that omits alike, the first value is shown as zero. -/
theorem showsZeroFirst_of_omitsAlike {id : EnumerationId} {enumeration : Enumeration}
    (isType : type = .enumeration id) (isEnumeration : pool.enumeration? id = some enumeration)
    (wellFormed : enumeration.WellFormed pool) (alike : OmitsAlike pool name message field) :
    enumeration.ShowsZeroFirst := by
  intro n text named
  have bounds : -2 ^ 31 ≤ n ∧ n < 2 ^ 31 := by
    rcases Enumeration.nameOf?_eq_some_iff.mp named with
      ⟨value, ⟨number, earlier, later, split, _⟩, _⟩
    exact number ▸ wellFormed.numbers value (split ▸ List.mem_append_cons_self)
  have word := toNat_ofInt64 n
  have same : signed 32 (UInt64.ofInt n).toNat = n := signed_narrow (by omega) bounds.1 bounds.2
  have reads : Reads pool refuse type (.varint (.ofInt n)) (.string text) := by
    intro _ _
    rw [isType]
    simp only [readValue?, renderPackable?, same, Option.map_some,
      renderEnumeration_of_nameOf? isEnumeration named]
  have short : ∀ written, Written pool type (.string text) written →
      (writtenValues field [written]).length < 2 ^ 32 := by
    intro written isWritten
    have layout := isWritten.layout
    rw [isType] at layout
    cases written with
    | varint word => exact length_writtenValues_varint field word
    | _ => cases layout
  have agree := sameDefault_of_omitsAlike shape noPresence found indexed member alike reads trivial
    short
  rw [isType] at agree
  exact (sameDefault_name_iff isEnumeration wellFormed named).mp agree

end Fields

/-- A value on the wire is shown as a value of a document, where it is shown at all: some payload
has it as the last value of its field, and the encoder takes what is shown. -/
structure ShownAs (pool : Pool) (name : String) (message : Message) (field : Field)
    (wire : Wire.Value) (shown : Json.Value) : Prop where
  reached : wire.Fits → ∃ payload members,
    decode pool .plain name payload = .ok (.object members) ∧ lastValue? field payload = some wire
  lookup : ∀ options : Options, options.emitDefaults = false → KeyIsOwn options message field →
    ∀ payload members, decode pool options name payload = .ok (.object members) →
      lastValue? field payload = some wire →
      members.lookup (options.key field) = none ∨ members.lookup (options.key field) = some shown
  accepted : ∃ written, encode pool name (.object [(field.name, shown)]) = .ok written

end Payload

open Schema Payload

/-- Whatever was registered, a field without presence is left out of documents exactly where it is
left out of payloads if its type is a scalar type.  If it is an enumeration, this holds exactly if
the first value, and it alone, is shown under a name that stands for zero; where no name is declared
twice, that is to say that the first number is zero. -/
theorem omitsAlike_iff (attempts : List (String × String)) {name : String} {message : Message}
    (found : (Pool.registerAll attempts).findMessage? name = some message) {field : Field}
    (member : field ∈ message.fields) {type : ValueType} {explicit : Bool}
    (shape : field.shape = .singular type explicit) (noPresence : field.hasPresence = false) :
    (∀ wire shown, Reads (.registerAll attempts) refuse type wire shown →
      ShownAs (.registerAll attempts) name message field wire shown) ∧
    (OmitsAlike (.registerAll attempts) name message field ↔ ∀ id enumeration,
      type = .enumeration id → (Pool.registerAll attempts).enumeration? id = some enumeration →
        enumeration.ShowsZeroFirst) ∧
    ∀ id enumeration, (Pool.registerAll attempts).enumeration? id = some enumeration →
      (enumeration.values.map (·.name)).Nodup →
        (enumeration.ShowsZeroFirst ↔ enumeration.defaultNumber = 0) := by
  have wellFormed := Pool.wellFormed_registerAll attempts
  rcases wellFormed.exists_of_findMessage? found with ⟨place, isMessage, _⟩
  have facts := wellFormed.messages message (List.mem_of_getElem? isMessage)
  have indexed := facts.indexed
  have isType : field.type = type := Field.type_of_shape shape
  have known : (Pool.registerAll attempts).HasType type := isType ▸ facts.types field member
  have notMessage := (of_hasPresence_eq_false shape noPresence).2
  have enumerations {id : EnumerationId} {enumeration : Enumeration}
      (isEnumeration : (Pool.registerAll attempts).enumeration? id = some enumeration) :
      enumeration.WellFormed (.registerAll attempts) :=
    wellFormed.enumerations enumeration (List.mem_of_getElem? isEnumeration)
  refine ⟨?_, ⟨?_, ?_⟩, ?_⟩
  · intro wire shown reads
    have layout := reads.layout.trans (congrArg ValueType.layout isType).symm
    refine ⟨fun fits => ?_, ?_, ?_⟩
    · exact ⟨_, _, decode_writtenValues shape notMessage found indexed member fits reads,
        lastValue?_writtenValues indexed member layout fits⟩
    · intro options sparse own payload members decoded last
      rw [lookup_of_lastValue? shape noPresence found indexed member reads sparse own decoded last]
      split
      · exact Or.inl rfl
      · exact Or.inr rfl
    · rcases writable_of_readValue? known notMessage (reads "" "") with ⟨written, isWritten⟩
      exact ⟨_, encode_written shape found indexed member isWritten⟩
  · intro alike id enumeration same isEnumeration
    exact showsZeroFirst_of_omitsAlike shape noPresence found indexed member same isEnumeration
      (enumerations isEnumeration) alike
  · intro zeroFirst
    apply omitsAlike_of_sameDefault shape noPresence found indexed member known
    intro wire shown reads
    -- Only the default of an enumeration depends on how the enumeration is declared.
    cases type with
    | scalar scalar => exact sameDefault_scalar reads
    | message id => cases notMessage
    | enumeration id =>
      rcases known with ⟨enumeration, isEnumeration⟩
      cases wire with
      | varint word =>
        rw [← Except.ok.inj (Option.some.inj (reads "" ""))]
        exact sameDefault_enumeration isEnumeration (enumerations isEnumeration)
          (zeroFirst id enumeration rfl isEnumeration) (signed_bounds 32 (by decide) word.toNat)
      | _ => cases reads "" ""
  · intro id enumeration isEnumeration distinct
    exact Enumeration.showsZeroFirst_iff (enumerations isEnumeration).nonempty distinct

/-- A schema with an enumeration that begins with zero. -/
def readingAttempts : List (String × String) :=
  [("reading.proto",
    "syntax=\"proto3\";enum Level\x7bNONE=0;LOW=1;\x7dmessage Reading\x7bLevel level=1;\x7d")]

theorem omitsAlike_iff_reading :
    ∃ message field, (Pool.registerAll readingAttempts).findMessage? "Reading" = some message ∧
      field ∈ message.fields ∧ field.shape = .singular (.enumeration ⟨0⟩) false ∧
      OmitsAlike (.registerAll readingAttempts) "Reading" message field := by
  have isField : ((Pool.registerAll readingAttempts).findMessage? "Reading").bind (fun message =>
      message.fields[0]?.map fun field => (field.shape, field.hasPresence)) =
        some (.singular (.enumeration ⟨0⟩) false, false) := by
    rw [readingAttempts, Pool.registerAll_ofList]
    decide +kernel
  have isLevel : ((Pool.registerAll readingAttempts).enumeration? ⟨0⟩).map (fun enumeration =>
      (enumeration.values.map (·.name), enumeration.defaultNumber)) =
        some (["NONE", "LOW"], 0) := by
    rw [readingAttempts, Pool.registerAll_ofList]
    decide +kernel
  rcases Option.bind_eq_some_iff.mp isField with ⟨message, found, first⟩
  rcases Option.map_eq_some_iff.mp first with ⟨field, there, same⟩
  have member := List.mem_of_getElem? there
  have shape : field.shape = .singular (.enumeration ⟨0⟩) false := congrArg Prod.fst same
  rcases omitsAlike_iff readingAttempts found member shape (congrArg Prod.snd same) with
    ⟨_, alike, zeroFirst⟩
  refine ⟨message, field, found, member, shape, alike.mpr ?_⟩
  rintro id enumeration isType isEnumeration
  cases isType
  rw [isEnumeration] at isLevel
  have names : enumeration.values.map (·.name) = ["NONE", "LOW"] :=
    congrArg Prod.fst (Option.some.inj isLevel)
  have default : enumeration.defaultNumber = 0 := congrArg Prod.snd (Option.some.inj isLevel)
  exact (zeroFirst ⟨0⟩ enumeration isEnumeration (names ▸ by decide)).mpr default

/-- A schema with an enumeration that does not begin with zero. -/
def gradeAttempts : List (String × String) :=
  [("grade.proto",
    "syntax=\"proto3\";enum Level\x7bLOW=1;NONE=0;\x7dmessage Reading\x7bLevel level=1;\x7d")]

/-- The zero is shown and then lost, and the first value is lost, though it would be written. -/
theorem omitsAlike_iff_grade :
    (decode (.registerAll gradeAttempts) .plain "Reading" [8, 0]).toOption.map (·.text) =
        some "\x7b\"level\":\"NONE\"\x7d" ∧
      encode (.registerAll gradeAttempts) "Reading" (.object [("level", .string "NONE")]) =
        .ok [] ∧
      (decode (.registerAll gradeAttempts) .plain "Reading" [8, 1]).toOption.map (·.text) =
        some "\x7b\x7d" ∧
      encode (.registerAll gradeAttempts) "Reading" (.object [("level", .string "LOW")]) =
        .ok [8, 1] := by
  rw [gradeAttempts, Pool.registerAll_ofList]
  exact ⟨by decide +kernel, by decide +kernel, by decide +kernel, by decide +kernel⟩

end SchemaRecords
