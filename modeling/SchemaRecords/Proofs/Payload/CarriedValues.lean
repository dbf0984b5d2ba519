import SchemaRecords.Proofs.Payload.ReadFields
import SchemaRecords.Proofs.Payload.ShownValues
import SchemaRecords.Proofs.Schema.RegularMessages

/-!
# Values that are written and read

A value of any type is carried by a value on the wire if the encoder writes it so and the
decoder reads it so.  For simple types this is what `Shown` says; for messages it depends on
the decoder of nested messages, which is a parameter here.

What holds of single values is carried over to the three shapes of a field: the record of a
single value, the records or the packed block of repeated values, and the records of the
entries of a map.
-/

namespace SchemaRecords.Payload

open SchemaRecords.Schema

/-! ## Types of regular messages -/

/-- A type of which nothing but regular messages can be reached. -/
inductive IsRegular (pool : Pool) : ValueType → Prop
  | simple {type : ValueType} (simple : IsSimple pool type) : IsRegular pool type
  | message {id : MessageId} {message : Message} (found : pool.message? id = some message)
      (notEntry : message.isMapEntry = false) (regular : pool.Regular message) :
      IsRegular pool (.message id)

section Types

variable {pool : Pool} {message : Message}

theorem isRegular_type (wellFormed : pool.WellFormed) (there : message ∈ pool.messages)
    (regular : pool.Regular message) {field : Field} (member : field ∈ message.fields)
    (notMap : field.isMap = false) : IsRegular pool field.type := by
  have nameable := (wellFormed.messages message there).nameable field member notMap
  have noFloats := regular.noFloats message .refl field member
  cases type : field.type with
  | scalar scalar =>
    rw [type] at noFloats
    refine .simple ⟨fun float => ?_, fun double => ?_⟩
    · exact noFloats.1 (congrArg ValueType.scalar float)
    · exact noFloats.2 (congrArg ValueType.scalar double)
  | enumeration id =>
    rw [type] at nameable
    rcases nameable with ⟨enumeration, found⟩
    have distinct := regular.namesDistinct message .refl field member id enumeration type found
    have numbers := (wellFormed.enumerations enumeration (List.mem_of_getElem? found)).numbers
    exact .simple ⟨enumeration, found, distinct, numbers⟩
  | message id =>
    rw [type] at nameable
    rcases nameable with ⟨next, found, notEntry⟩
    exact .message found notEntry (regular.next member type found)

/-- A field from which nothing but regular messages can be reached, by its shape. -/
inductive RegularField (pool : Pool) (field : Field) : Prop
  | simple {type : ValueType} {explicit : Bool} (shape : field.shape = .singular type explicit)
      (simple : IsSimple pool type)
      (zeroFirst : field.hasPresence = false → ∀ id enumeration, type = .enumeration id →
        pool.enumeration? id = some enumeration → enumeration.defaultNumber = 0) :
      RegularField pool field
  | message {id : MessageId} {explicit : Bool} {next : Message}
      (shape : field.shape = .singular (.message id) explicit)
      (found : pool.message? id = some next) (notEntry : next.isMapEntry = false)
      (regular : pool.Regular next) : RegularField pool field
  | repeated {type : ValueType} {packed : Bool} (shape : field.shape = .repeated type packed)
      (packable : packed = true → type.isPackable = true) (regular : IsRegular pool type) :
      RegularField pool field
  | map {id : MessageId} {entry : Message} {key : Scalar} {type : ValueType}
      (shape : field.shape = .map id) (found : pool.message? id = some entry)
      (fields : entry.fields = [.entryKey key, .entryValue type])
      (legal : key.isMapKey = true) (regular : IsRegular pool type) : RegularField pool field

/-- The fields of a regular message are regular. -/
theorem regularField (wellFormed : pool.WellFormed) (there : message ∈ pool.messages)
    (notEntry : message.isMapEntry = false) (regular : pool.Regular message) {field : Field}
    (member : field ∈ message.fields) : RegularField pool field := by
  cases shape : field.shape with
  | singular type explicit =>
    have notMap : field.isMap = false := by rw [Field.isMap, shape]
    have fieldType : field.type = type := by rw [Field.type, shape, Shape.type]
    have typeRegular := fieldType ▸ isRegular_type wellFormed there regular member notMap
    cases typeRegular with
    | simple simple =>
      refine .simple shape simple ?_
      intro noPresence id enumeration isEnumeration found
      exact regular.zeroFirst message .refl notEntry field member id explicit enumeration
        (isEnumeration ▸ shape) noPresence found
    | message found nextNotEntry nextRegular =>
      exact .message shape found nextNotEntry nextRegular
  | repeated type packed =>
    have notMap : field.isMap = false := by rw [Field.isMap, shape]
    have fieldType : field.type = type := by rw [Field.type, shape, Shape.type]
    have typeRegular := fieldType ▸ isRegular_type wellFormed there regular member notMap
    refine .repeated shape (fun isPacked => ?_) typeRegular
    exact (wellFormed.messages message there).packable field member type (isPacked ▸ shape)
  | map id =>
    rcases (wellFormed.messages message there).entries field member id shape with
      ⟨entry, found, _, key, type, legal, fields⟩
    have fieldType : field.type = .message id := by rw [Field.type, shape, Shape.type]
    have entryRegular := regular.next member fieldType found
    have isValue : Field.entryValue type ∈ entry.fields := by
      rw [fields]
      exact List.mem_cons_of_mem _ List.mem_cons_self
    exact .map shape found fields legal
      (isRegular_type wellFormed (List.mem_of_getElem? found) entryRegular isValue rfl)

theorem isSimple_key {key : Scalar} (legal : key.isMapKey = true) :
    IsSimple pool (.scalar key) := by
  constructor
  · intro float
    subst float
    cases legal
  · intro double
    subst double
    cases legal

end Types

/-! ## Single values -/

/-- A value of a document that is written as a value on the wire. -/
structure Written (pool : Pool) (type : ValueType) (value : Json.Value) (wire : Wire.Value) :
    Prop where
  notNull : value.isNull = false
  layout : wire.layout = type.layout
  convert : ∀ field, convert pool field type value = .ok wire

/-- A value on the wire that is read as a value of a document. -/
def Reads (pool : Pool) (decoder : Decoder) (type : ValueType) (wire : Wire.Value)
    (value : Json.Value) : Prop :=
  ∀ message field, readValue? pool decoder message field type wire = some (.ok value)

/-- A value on the wire that is laid out as a type says and that no reader passes over. -/
structure Legible (pool : Pool) (decoder : Decoder) (type : ValueType) (wire : Wire.Value) :
    Prop where
  layout : wire.layout = type.layout
  readable : ∀ message field, readValue? pool decoder message field type wire ≠ none

section Values

variable {pool : Pool} {decoder : Decoder} {type : ValueType} {value : Json.Value}
  {wire : Wire.Value}

theorem IsSimple.notMessage (simple : IsSimple pool type) : type.isMessage = false := by
  cases type with
  | message id => cases simple
  | _ => rfl

theorem convert_of_notMessage (notMessage : type.isMessage = false) (field : String)
    (value : Json.Value) : convert pool field type value = convertSimple pool field type value := by
  cases value with
  | object members =>
    cases type with
    | message id => cases notMessage
    | _ => rfl
  | _ => rfl

theorem convert_of_isSimple (simple : IsSimple pool type) (field : String) (value : Json.Value) :
    convert pool field type value = convertSimple pool field type value :=
  convert_of_notMessage simple.notMessage field value

theorem Shown.written (simple : IsSimple pool type) (shown : Shown pool type value wire) :
    Written pool type value wire where
  notNull := shown.notNull
  layout := shown.layout
  convert := fun field => (convert_of_isSimple simple field value).trans (shown.convert field)

/-- A value is written in one way. -/
theorem Written.unique {other : Wire.Value} (one : Written pool type value wire)
    (again : Written pool type value other) : wire = other :=
  Except.ok.inj ((one.convert "").symm.trans (again.convert ""))

theorem Shown.reads (shown : Shown pool type value wire) : Reads pool decoder type wire value :=
  fun message field => shown.read decoder message field

/-- The names of message and field appear in refusals only. -/
theorem reads_of_readValue? {message field : String}
    (read : readValue? pool decoder message field type wire = some (.ok value)) :
    Reads pool decoder type wire value := by
  intro otherMessage otherField
  unfold readValue? at read ⊢
  split at read
  · rename_i id content
    cases followed : decoder.follow pool id content with
    | ok document =>
      rw [followed] at read
      exact read
    | error refusal =>
      rw [followed] at read
      cases read
  · split at read
    · exact read
    · cases read
  · exact read
  · exact read

/-- Only messages are read by the decoder of nested messages. -/
theorem readValue?_of_notMessage (notMessage : type.isMessage = false)
    (first second : Decoder) (message field : String) (wire : Wire.Value) :
    readValue? pool first message field type wire =
      readValue? pool second message field type wire := by
  cases type with
  | message id => cases notMessage
  | scalar scalar => cases scalar <;> cases wire <;> rfl
  | enumeration id => cases wire <;> rfl

/-- Whatever is laid out in another way is passed over. -/
theorem readValue?_of_layout_ne {message field : String} (different : wire.layout ≠ type.layout) :
    readValue? pool decoder message field type wire = none := by
  cases type with
  | scalar scalar => cases scalar <;> cases wire <;> first | rfl | exact absurd rfl different
  | message id => cases wire <;> first | rfl | exact absurd rfl different
  | enumeration id => cases wire <;> first | rfl | exact absurd rfl different

theorem Reads.layout (reads : Reads pool decoder type wire value) : wire.layout = type.layout := by
  by_contra different
  cases (readValue?_of_layout_ne different).symm.trans (reads "" "")

theorem reads_message {id : MessageId} {message : Message} (found : pool.message? id = some message)
    {content : Bytes} : Reads pool decoder (.message id) (.delimited content) value ↔
      decoder message content = .ok value := by
  have follow : decoder.follow pool id content = decoder message content := by
    rw [Decoder.follow, found]
  constructor
  · intro reads
    have read := reads "" ""
    simp only [readValue?, follow] at read
    cases decoded : decoder message content with
    | ok document =>
      rw [decoded] at read
      exact Option.some.inj read
    | error refusal =>
      rw [decoded] at read
      cases read
  · intro decoded name field
    simp only [readValue?, follow, decoded, inField]

/-- The zero of a simple type is shown as its default. -/
theorem shown_zero (simple : IsSimple pool type) :
    Shown pool type (renderDefault pool type) (zero pool type) := by
  cases type with
  | message id => cases simple
  | enumeration id =>
    rcases simple with ⟨enumeration, found, named⟩
    simp only [renderDefault, zero, ValueType.layout, found, Option.elim]
    exact .enumeration found named (defaultNumber_bounds named.numbers)
  | scalar scalar =>
    by_cases integer : isIntegerType scalar = true
    · have holds : HoldsInteger scalar 0 := by
        cases scalar
        case double | float | bool | string | bytes => cases integer
        all_goals exact ⟨by decide, by decide⟩
      have zeroShown : Shown pool (.scalar scalar) (showInteger scalar 0)
          (wireOfInteger scalar 0) := .integer holds
      cases scalar
      case double | float | bool | string | bytes => cases integer
      all_goals exact zeroShown
    · cases scalar
      case double => exact absurd rfl simple.2
      case float => exact absurd rfl simple.1
      case bool => exact .bool false
      case string => exact .string ""
      case bytes => exact .bytes []
      all_goals exact absurd rfl integer

end Values

/-! ## Values of a field -/

/-- A value of a document for a field is written as some values on the wire, none of which a
reader passes over. -/
structure FieldLegible (pool : Pool) (decoder entryDecoder : Decoder) (message : Message)
    (field : Field) (given : Json.Value) (wires : List Wire.Value) : Prop where
  records : valueRecords pool field given = .ok (writtenValues field wires)
  readable : ∀ wire ∈ wires, contribution? pool decoder entryDecoder message field wire ≠ none

section Shapes

variable {pool : Pool} {decoder entryDecoder : Decoder} {message : Message} {field : Field}

theorem singleRecord_ok (field : Field) (wire : Wire.Value) :
    singleRecord field (.ok wire) =
      .ok (writtenValues field (if !field.hasPresence && isZero wire then [] else [wire])) := by
  simp only [singleRecord, Except.map, writtenValues]
  split
  · rfl
  · rw [List.map_singleton, Wire.Record.encodeAll_cons]
    exact congrArg Except.ok (List.append_nil _).symm

theorem valueRecords_single {type : ValueType} {explicit : Bool}
    (shape : field.shape = .singular type explicit) {value : Json.Value} {wire : Wire.Value}
    (written : Written pool type value wire) :
    valueRecords pool field value =
      .ok (writtenValues field (if !field.hasPresence && isZero wire then [] else [wire])) := by
  rw [valueRecords, fieldRecords, shape]
  simp only [written.convert field.name, singleRecord_ok]

/-- The records of a single value, from the value that it is converted to. -/
theorem exists_of_valueRecords_single {type : ValueType} {explicit : Bool}
    (shape : field.shape = .singular type explicit) {given : Json.Value} {records : Bytes}
    (written : valueRecords pool field given = .ok records) :
    ∃ wire, convert pool field.name type given = .ok wire ∧ valueRecords pool field given =
      .ok (writtenValues field (if !field.hasPresence && isZero wire then [] else [wire])) := by
  rw [valueRecords, fieldRecords, shape] at written ⊢
  dsimp only at written ⊢
  rcases Outcome.map_eq_ok_iff.mp written with ⟨wire, converted, _⟩
  refine ⟨wire, converted, ?_⟩
  rw [converted, singleRecord_ok]

theorem contribution?_of_notMessage {type : ValueType} {explicit : Bool}
    (shape : field.shape = .singular type explicit) (notMessage : type.isMessage = false)
    (wire : Wire.Value) :
    contribution? pool decoder entryDecoder message field wire =
      (readValue? pool decoder message.fullName field.name type wire).map (·.map .value) := by
  rw [contribution?.eq_def, shape]
  cases type with
  | message id => cases notMessage
  | scalar scalar => rfl
  | enumeration id => rfl

theorem contribution?_simple {type : ValueType} {explicit : Bool}
    (shape : field.shape = .singular type explicit) (simple : IsSimple pool type)
    (wire : Wire.Value) :
    contribution? pool decoder entryDecoder message field wire =
      (readValue? pool decoder message.fullName field.name type wire).map (·.map .value) :=
  contribution?_of_notMessage shape simple.notMessage wire

theorem fieldValue_of_notMessage {type : ValueType} {explicit : Bool}
    (shape : field.shape = .singular type explicit) (notMessage : type.isMessage = false)
    (options : Options) (contributions : List Contribution) :
    fieldValue pool options decoder field contributions =
      match (valuesOf contributions).getLast? with
      | some value =>
        if !field.hasPresence && !options.emitDefaults && isDefault pool type value then .ok none
        else .ok (some value)
      | none =>
        if options.emitDefaults && !field.hasPresence then .ok (some (renderDefault pool type))
        else .ok none := by
  rw [fieldValue, shape]
  cases type with
  | message id => cases notMessage
  | scalar scalar => rfl
  | enumeration id => rfl

theorem fieldValue_of_message {id : MessageId} {explicit : Bool}
    (shape : field.shape = .singular (.message id) explicit) (options : Options)
    (contributions : List Contribution) :
    fieldValue pool options decoder field contributions =
      match contentsOf contributions with
      | [] => .ok none
      | contents => (inField field.name (decoder.follow pool id contents.flatten)).map some := by
  cases given : contentsOf contributions with
  | nil => simp only [fieldValue, shape, given]
  | cons content rest => simp only [fieldValue, shape, given]

/-- A value that counts as the default is the default. -/
theorem eq_of_isDefault {type : ValueType} {value : Json.Value} (default : isDefault pool type value = true) :
    value = renderDefault pool type := by
  unfold isDefault at default
  generalize renderDefault pool type = zero at default ⊢
  cases value <;> cases zero <;> simp_all [sameSimple]

theorem fieldValue_simple {type : ValueType} {explicit : Bool}
    (shape : field.shape = .singular type explicit) (simple : IsSimple pool type)
    (contributions : List Contribution) :
    fieldValue pool .plain decoder field contributions =
      match (valuesOf contributions).getLast? with
      | some value =>
        if !field.hasPresence && isDefault pool type value then .ok none else .ok (some value)
      | none => .ok none := by
  rw [fieldValue_of_notMessage shape simple.notMessage]
  cases (valuesOf contributions).getLast? <;> simp [Options.plain]

/-- A shown value is the value of its field, unless it may be left out. -/
theorem fieldValue_shown {type : ValueType} {explicit : Bool}
    (shape : field.shape = .singular type explicit) (simple : IsSimple pool type)
    {value : Json.Value} {wire : Wire.Value} (shown : Shown pool type value wire) :
    Contribute pool decoder entryDecoder message field [wire] ∧
      fieldValue pool .plain decoder field
          (contributionsOf pool decoder entryDecoder message field [wire]) =
        if !field.hasPresence && isDefault pool type value then .ok none else .ok (some value) := by
  have back : List.Forall₂ (fun wire contribution =>
      contribution? pool decoder entryDecoder message field wire = some (.ok contribution))
      [wire] [.value value] := by
    refine .cons ?_ .nil
    rw [contribution?_simple shape simple, shown.read]
    rfl
  refine ⟨.of_forall₂ back, ?_⟩
  rw [contributionsOf_eq back, fieldValue_simple shape simple]
  rfl

/-- A content gives a message field itself. -/
theorem forall₂_content {id : MessageId} {explicit : Bool}
    (shape : field.shape = .singular (.message id) explicit) (content : Bytes) :
    List.Forall₂ (fun wire contribution =>
      contribution? pool decoder entryDecoder message field wire = some (.ok contribution))
      [.delimited content] [.content content] := by
  refine .cons ?_ .nil
  rw [contribution?.eq_def, shape]

/-- The document of all contents joined is the value of their field. -/
theorem fieldValue_contents {options : Options} {id : MessageId} {explicit : Bool} {next : Message}
    (shape : field.shape = .singular (.message id) explicit)
    (found : pool.message? id = some next) {contributions : List Contribution}
    (some : contentsOf contributions ≠ []) :
    fieldValue pool options decoder field contributions =
      (inField field.name (decoder next (contentsOf contributions).flatten)).map Option.some := by
  rw [fieldValue, shape]
  dsimp only
  split
  · exact absurd ‹_› some
  · rw [Decoder.follow, found]

theorem fieldValue_oneContent {options : Options} {id : MessageId} {explicit : Bool}
    {next : Message} (shape : field.shape = .singular (.message id) explicit)
    (found : pool.message? id = some next) (content : Bytes) :
    fieldValue pool options decoder field [.content content] =
      (inField field.name (decoder next content)).map some := by
  have given : contentsOf [.content content] ≠ [] := List.cons_ne_nil content []
  rw [fieldValue_contents shape found given]
  exact congrArg (fun bytes => (inField field.name (decoder next bytes)).map some)
    (List.append_nil content)

/-- The document of a content is the value of its field. -/
theorem fieldValue_content {id : MessageId} {explicit : Bool} {next : Message}
    (shape : field.shape = .singular (.message id) explicit)
    (found : pool.message? id = some next) (content : Bytes) :
    Contribute pool decoder entryDecoder message field [.delimited content] ∧
      fieldValue pool .plain decoder field
          (contributionsOf pool decoder entryDecoder message field [.delimited content]) =
        (inField field.name (decoder next content)).map some := by
  refine ⟨.of_forall₂ (forall₂_content shape content), ?_⟩
  rw [contributionsOf_eq (forall₂_content shape content)]
  exact fieldValue_oneContent shape found content

/-- A single message is always written. -/
theorem hasPresence_of_message {id : MessageId} {explicit : Bool}
    (shape : field.shape = .singular (.message id) explicit) : field.hasPresence = true := by
  rw [Field.hasPresence, shape]
  exact Bool.or_true _

theorem fieldValue_nil (pool : Pool) (decoder : Decoder) (field : Field) :
    fieldValue pool .plain decoder field [] = .ok none := by
  unfold fieldValue
  generalize field.shape = shape
  cases shape with
  | singular type explicit => cases type <;> rfl
  | repeated type packed => rfl
  | map id => rfl

/-- What is written for repeated values: a block of all of them, or each one. -/
def blocks (packed : Bool) (wires : List Wire.Value) : List Wire.Value :=
  if packed = true ∧ wires ≠ [] then [.delimited (wires.flatMap Wire.Value.encode)] else wires

theorem blocks_eq_nil_iff {packed : Bool} {wires : List Wire.Value} :
    blocks packed wires = [] ↔ wires = [] := by
  unfold blocks
  split
  · rename_i both
    constructor
    · intro impossible
      cases impossible
    · intro empty
      exact absurd empty both.2
  · exact Iff.rfl

theorem repeatedRecords_ok (field : Field) (packed : Bool) (wires : List Wire.Value) :
    repeatedRecords field packed (.ok wires) = .ok (writtenValues field (blocks packed wires)) := by
  simp only [repeatedRecords, Except.map, writtenValues, blocks]
  by_cases empty : wires = []
  · subst empty
    simp [Wire.Record.encodeAll]
  · cases packed with
    | false => simp [empty, Wire.Record.encodeAll, List.flatMap_map]
    | true => simp [empty, Wire.Record.encodeAll]

theorem convertItems_of_written {type : ValueType} {values : List Json.Value}
    {wires : List Wire.Value} (each : List.Forall₂ (Written pool type) values wires)
    (field : String) : convertItems pool field type values = .ok wires := by
  induction each with
  | nil => rfl
  | cons first _ inductionHypothesis =>
    simp only [convertItems, first.notNull, Bool.false_eq_true, if_false, first.convert field,
      inductionHypothesis]

/-- Converted items are converted one by one. -/
theorem forall₂_of_convertItems {type : ValueType} {items : List Json.Value} {field : String}
    {wires : List Wire.Value} (converted : convertItems pool field type items = .ok wires) :
    List.Forall₂ (fun item wire => convert pool field type item = .ok wire) items wires := by
  induction items generalizing wires with
  | nil =>
    cases converted
    exact .nil
  | cons item rest inductionHypothesis =>
    rw [convertItems] at converted
    by_cases isNull : item.isNull = true
    · rw [if_pos isNull] at converted
      cases converted
    · rw [if_neg isNull] at converted
      split at converted
      · cases converted
      · rename_i first firstConverted
        split at converted
        · cases converted
        · rename_i others restConverted
          cases converted
          exact .cons firstConverted (inductionHypothesis restConverted)

/-- What is related to some elements, each to one, comes from one of them. -/
theorem exists_source {α β : Type} {R : α → β → Prop} {list : List α} {others : List β}
    (each : List.Forall₂ R list others) : ∀ other ∈ others, ∃ element ∈ list, R element other := by
  induction each with
  | nil => exact List.forall_mem_nil _
  | cons first _ inductionHypothesis =>
    intro other member
    rcases List.mem_cons.mp member with same | later
    · exact ⟨_, List.mem_cons_self, same ▸ first⟩
    · rcases inductionHypothesis other later with ⟨element, there, related⟩
      exact ⟨element, List.mem_cons_of_mem _ there, related⟩

theorem exists_forall₂ {α β : Type} {R : α → β → Prop} {list : List α}
    (each : ∀ element ∈ list, ∃ other, R element other) : ∃ others, List.Forall₂ R list others := by
  induction list with
  | nil => exact ⟨[], .nil⟩
  | cons first rest inductionHypothesis =>
    rcases each first List.mem_cons_self with ⟨other, related⟩
    rcases inductionHypothesis fun element member =>
      each element (List.mem_cons_of_mem _ member) with ⟨others, restRelated⟩
    exact ⟨other :: others, .cons related restRelated⟩

theorem forall₂_imp_of_mem {α β : Type} {R S : α → β → Prop} {list : List α} {others : List β}
    (weaker : ∀ element ∈ list, ∀ other ∈ others, R element other → S element other)
    (each : List.Forall₂ R list others) : List.Forall₂ S list others := by
  induction each with
  | nil => exact .nil
  | cons first _ inductionHypothesis =>
    refine .cons (weaker _ List.mem_cons_self _ List.mem_cons_self first) ?_
    exact inductionHypothesis fun element there other otherThere =>
      weaker element (List.mem_cons_of_mem _ there) other (List.mem_cons_of_mem _ otherThere)

theorem layout_of_forall₂ {type : ValueType} {values : List Json.Value} {wires : List Wire.Value}
    (each : List.Forall₂ (Written pool type) values wires) :
    ∀ wire ∈ wires, wire.layout = type.layout := by
  intro wire member
  rcases exists_source each wire member with ⟨_, _, written⟩
  exact written.layout

theorem valueRecords_repeated {type : ValueType} {packed : Bool}
    (shape : field.shape = .repeated type packed) {values : List Json.Value}
    {wires : List Wire.Value} (each : List.Forall₂ (Written pool type) values wires) :
    valueRecords pool field (.array values) =
      .ok (writtenValues field (blocks packed wires)) := by
  rw [valueRecords, fieldRecords, shape]
  simp only [convertElements, convertItems_of_written each, repeatedRecords_ok]

theorem layout_ne_of_isPackable {type : ValueType} (packable : type.isPackable = true) :
    type.layout ≠ .delimited := by
  cases type with
  | scalar scalar =>
    cases scalar
    case string | bytes => cases packable
    all_goals exact fun impossible => nomatch impossible
  | message id => cases packable
  | enumeration id => exact fun impossible => nomatch impossible

theorem isMessage_of_isPackable {type : ValueType} (packable : type.isPackable = true) :
    type.isMessage = false := by
  cases type with
  | message id => cases packable
  | _ => rfl

theorem readValue?_of_isPackable {type : ValueType} (packable : type.isPackable = true)
    (name fieldName : String) (wire : Wire.Value) :
    readValue? pool decoder name fieldName type wire = (renderPackable? pool type wire).map .ok := by
  cases type with
  | scalar scalar =>
    cases scalar
    case string | bytes => cases packable
    all_goals rfl
  | message id => cases packable
  | enumeration id => rfl

theorem fits_of_layout_ne {wire : Wire.Value} (layout : wire.layout ≠ .delimited) : wire.Fits := by
  cases wire with
  | delimited content => exact absurd rfl layout
  | _ => trivial

/-- If what is written for repeated values fits, then so do the values: those of a block are not
delimited. -/
theorem fits_of_fits_blocks {type : ValueType} {packed : Bool}
    (packable : packed = true → type.isPackable = true) {wires : List Wire.Value}
    (layout : ∀ wire ∈ wires, wire.layout = type.layout)
    (fits : ∀ wire ∈ blocks packed wires, wire.Fits) : ∀ wire ∈ wires, wire.Fits := by
  intro wire member
  by_cases isPacked : packed = true
  · exact fits_of_layout_ne (layout wire member ▸ layout_ne_of_isPackable (packable isPacked))
  · apply fits wire
    rw [blocks, if_neg fun both => isPacked both.1]
    exact member

theorem filterMap_renderPackable? {type : ValueType} (packable : type.isPackable = true)
    {wires : List Wire.Value} {values : List Json.Value}
    (each : List.Forall₂ (Reads pool decoder type) wires values) :
    wires.filterMap (renderPackable? pool type) = values := by
  induction each with
  | nil => rfl
  | cons first _ inductionHypothesis =>
    have read := first "" ""
    rw [readValue?_of_isPackable packable] at read
    rcases Option.map_eq_some_iff.mp read with ⟨value, rendered, same⟩
    rw [List.filterMap_cons_some rendered, inductionHypothesis, Except.ok.inj same]

/-- A packed block is read as its values. -/
theorem readPacked_of_reads {type : ValueType} (packable : type.isPackable = true)
    {wires : List Wire.Value} (layout : ∀ wire ∈ wires, wire.layout = type.layout)
    {values : List Json.Value} (each : List.Forall₂ (Reads pool decoder type) wires values)
    (name : String) :
    readPacked pool name type (wires.flatMap Wire.Value.encode) = .ok values := by
  have fits : ∀ wire ∈ wires, wire.Fits := fun wire member =>
    fits_of_layout_ne (layout wire member ▸ layout_ne_of_isPackable packable)
  simp only [readPacked, Wire.Value.readAll_encode layout fits,
    filterMap_renderPackable? packable each]

theorem contribution?_element {type : ValueType} {packed : Bool}
    (shape : field.shape = .repeated type packed) {wire : Wire.Value}
    (layout : wire.layout = type.layout) :
    contribution? pool decoder entryDecoder message field wire =
      (readValue? pool decoder message.fullName field.name type wire).map
        (·.map fun element => .elements [element]) := by
  rw [contribution?.eq_def, shape]
  cases wire with
  | delimited content =>
    have unpackable : ¬ type.isPackable = true := fun packable =>
      layout_ne_of_isPackable packable layout.symm
    simp only [if_neg unpackable]
  | _ => rfl

theorem forall₂_elements {type : ValueType} {packed : Bool}
    (shape : field.shape = .repeated type packed) {wires : List Wire.Value}
    (layout : ∀ wire ∈ wires, wire.layout = type.layout) {values : List Json.Value}
    (each : List.Forall₂ (Reads pool decoder type) wires values) :
    List.Forall₂ (fun wire contribution =>
      contribution? pool decoder entryDecoder message field wire = some (.ok contribution))
      wires (values.map fun value => .elements [value]) := by
  induction each with
  | nil => exact .nil
  | cons first _ inductionHypothesis =>
    rename_i wire value _ _ _
    have later := inductionHypothesis fun other member => layout other (List.mem_cons_of_mem _ member)
    refine .cons ?_ later
    rw [contribution?_element shape (layout wire List.mem_cons_self), first]
    rfl

/-- Repeated values are read as the elements of the field, in one block or one by one. -/
theorem elementsOf_blocks {type : ValueType} {packed : Bool}
    (shape : field.shape = .repeated type packed)
    (packable : packed = true → type.isPackable = true) {wires : List Wire.Value}
    (layout : ∀ wire ∈ wires, wire.layout = type.layout) {values : List Json.Value}
    (each : List.Forall₂ (Reads pool decoder type) wires values) :
    Contribute pool decoder entryDecoder message field (blocks packed wires) ∧
      elementsOf (contributionsOf pool decoder entryDecoder message field (blocks packed wires)) =
        values := by
  unfold blocks
  split
  · rename_i both
    have single : List.Forall₂ (fun wire contribution =>
        contribution? pool decoder entryDecoder message field wire = some (.ok contribution))
        [.delimited (wires.flatMap Wire.Value.encode)] [.elements values] := by
      refine .cons ?_ .nil
      rw [contribution?.eq_def, shape]
      simp only [packable both.1, if_true, readPacked_of_reads (packable both.1) layout each]
      rfl
    refine ⟨.of_forall₂ single, ?_⟩
    rw [contributionsOf_eq single, elementsOf]
    exact List.append_nil values
  · have every : List.Forall₂ (fun wire contribution =>
        contribution? pool decoder entryDecoder message field wire = some (.ok contribution))
        wires (values.map fun value => .elements [value]) := forall₂_elements shape layout each
    refine ⟨.of_forall₂ every, ?_⟩
    rw [contributionsOf_eq every, elementsOf, List.flatMap_map]
    exact List.flatMap_singleton' values

/-- Converted elements are written in a block or one by one. -/
theorem fieldLegible_elements {type : ValueType} {packed : Bool}
    (shape : field.shape = .repeated type packed)
    (packable : packed = true → type.isPackable = true) {given : Json.Value}
    {wires : List Wire.Value} (converted : convertElements pool field.name type given = .ok wires)
    (legible : ∀ wire ∈ wires, Legible pool decoder type wire) :
    FieldLegible pool decoder entryDecoder message field given (blocks packed wires) where
  records := by
    rw [valueRecords, fieldRecords, shape]
    simp only [converted, repeatedRecords_ok]
  readable := by
    intro wire member
    by_cases block : packed = true ∧ wires ≠ []
    · rw [blocks, if_pos block] at member
      rw [List.mem_singleton.mp member, contribution?.eq_def, shape]
      simp only [packable block.1, if_true]
      exact Option.some_ne_none _
    · rw [blocks, if_neg block] at member
      rw [contribution?_element shape (legible wire member).layout]
      intro skipped
      exact (legible wire member).readable _ _ (Option.map_eq_none_iff.mp skipped)

/-- What a document shows for elements. -/
def shownElements (options : Options) (values : List Json.Value) : Option Json.Value :=
  if values = [] then if options.emitDefaults then some (.array []) else none
  else some (.array values)

theorem fieldValue_shownElements {type : ValueType} {packed : Bool}
    (shape : field.shape = .repeated type packed) (options : Options)
    (contributions : List Contribution) :
    fieldValue pool options decoder field contributions =
      .ok (shownElements options (elementsOf contributions)) := by
  rw [fieldValue, shape, shownElements]
  dsimp only
  cases elementsOf contributions <;> rfl

theorem fieldValue_elements {type : ValueType} {packed : Bool}
    (shape : field.shape = .repeated type packed) {contributions : List Contribution}
    {values : List Json.Value} (elements : elementsOf contributions = values) :
    fieldValue pool .plain decoder field contributions =
      .ok (if values = [] then none else some (.array values)) := by
  rw [fieldValue_shownElements shape, elements]
  rfl

end Shapes

/-! ## Map entries -/

/-- An entry of a map object that is written as the content of an entry message. -/
def EntryWritten (pool : Pool) (key : Scalar) (type : ValueType) (entry : String × Json.Value)
    (content : Bytes) : Prop :=
  ∃ first second, convertKey pool (.entryKey key) entry.1 = .ok first ∧
    Written pool type entry.2 second ∧
    content = entryContent (.entryKey key) (.entryValue type) first second

section Maps

variable {pool : Pool} {decoder entryDecoder : Decoder} {message entry : Message} {field : Field}
  {id : MessageId} {key : Scalar} {type : ValueType}

theorem entryRecords_ok (field : Field) (contents : List Bytes) :
    entryRecords field (.ok contents) = .ok (writtenValues field (contents.map .delimited)) := by
  simp only [entryRecords, Except.map, writtenValues, Wire.Record.encodeAll, List.flatMap_map]

/-- An entry of a map object is converted to the content of an entry message. -/
def EntryConverted (pool : Pool) (key : Scalar) (type : ValueType) (entry : String × Json.Value)
    (content : Bytes) : Prop :=
  ∃ first second, convertKey pool (.entryKey key) entry.1 = .ok first ∧
    (if entry.2.isNull then .ok (zero pool type) else convert pool "value" type entry.2) =
      .ok second ∧
    content = entryContent (.entryKey key) (.entryValue type) first second

/-- Converted entries are converted one by one. -/
theorem forall₂_of_convertEntries {entries : Json.Members} {contents : List Bytes}
    (converted : convertEntries pool (.entryKey key) (.entryValue type) entries = .ok contents) :
    List.Forall₂ (EntryConverted pool key type) entries contents := by
  induction entries generalizing contents with
  | nil =>
    cases converted
    exact .nil
  | cons entry rest inductionHypothesis =>
    rcases entry with ⟨text, item⟩
    rw [convertEntries] at converted
    split at converted
    · cases converted
    · rename_i first keyConverted
      split at converted
      · cases converted
      · rename_i second valueConverted
        split at converted
        · cases converted
        · rename_i others restConverted
          cases converted
          exact .cons ⟨first, second, keyConverted, valueConverted, rfl⟩
            (inductionHypothesis restConverted)

theorem convertEntries_of_written {entries : Json.Members} {contents : List Bytes}
    (each : List.Forall₂ (EntryWritten pool key type) entries contents) :
    convertEntries pool (.entryKey key) (.entryValue type) entries = .ok contents := by
  induction each with
  | nil => rfl
  | cons first _ inductionHypothesis =>
    rcases first with ⟨firstWire, secondWire, keyWritten, valueWritten, same⟩
    simp only [convertEntries, keyWritten, valueWritten.notNull, Bool.false_eq_true, if_false]
    have converted := valueWritten.convert (Field.entryValue type).name
    simp only [show (Field.entryValue type).type = type from rfl, converted, inductionHypothesis, same]

theorem valueRecords_map (shape : field.shape = .map id) (found : pool.message? id = some entry)
    (fields : entry.fields = [.entryKey key, .entryValue type]) {entries : Json.Members}
    {contents : List Bytes} (each : List.Forall₂ (EntryWritten pool key type) entries contents) :
    valueRecords pool field (.object entries) =
      .ok (writtenValues field (contents.map .delimited)) := by
  rw [valueRecords, fieldRecords, shape]
  simp only [convertMap, found, fields, convertEntries_of_written each, entryRecords_ok]

/-- The content of an entry as records. -/
theorem entryContent_eq (first second : Wire.Value) :
    entryContent (.entryKey key) (.entryValue type) first second =
      Wire.Record.encodeAll [(1, first), (2, second)] := by
  simp only [entryContent, Wire.Record.encodeAll, List.flatMap_cons, List.flatMap_nil,
    List.append_nil]
  rfl

theorem fits_of_entryContent {first second : Wire.Value}
    (short : (entryContent (.entryKey key) (.entryValue type) first second).length < 2 ^ 32) :
    first.Fits ∧ second.Fits := by
  rw [entryContent_eq] at short
  have each {record : Nat × Wire.Value} (member : record ∈ [(1, first), (2, second)]) :
      record.2.Fits :=
    Wire.Value.fits_of_length (Nat.lt_of_le_of_lt (Wire.Record.length_encode_le member) short)
  exact ⟨each List.mem_cons_self, each (List.mem_cons_of_mem _ List.mem_cons_self)⟩

/-- The content of an entry is two records. -/
theorem split_entryContent {first second : Wire.Value} (firstFits : first.Fits)
    (secondFits : second.Fits) :
    Wire.Record.split (entryContent (.entryKey key) (.entryValue type) first second) =
      ([⟨1, some first⟩, ⟨2, some second⟩], none) := by
  have one : Wire.IsNumber 1 := ⟨by decide, by decide⟩
  have two : Wire.IsNumber 2 := ⟨by decide, by decide⟩
  have legal : ∀ record ∈ [(1, first), (2, second)], Wire.IsNumber record.1 := by
    intro record member
    rcases List.mem_cons.mp member with same | later
    · exact same ▸ one
    · exact List.mem_singleton.mp later ▸ two
  have fits : ∀ record ∈ [(1, first), (2, second)], record.2.Fits := by
    intro record member
    rcases List.mem_cons.mp member with same | later
    · exact same ▸ firstFits
    · exact List.mem_singleton.mp later ▸ secondFits
  rw [entryContent_eq, Wire.Record.split_encodeAll legal fits]
  rfl

/-- An entry that was written is decoded from its key and its value. -/
theorem decodeEntry_entryContent (fields : entry.fields = [.entryKey key, .entryValue type])
    {first second : Wire.Value} (firstFits : first.Fits) (secondFits : second.Fits)
    {keyShown : Json.Value} (shown : Shown pool (.scalar key) keyShown first)
    {run : Decoded Json.Value}
    (read : readValue? pool decoder entry.fullName "value" type second = some run) :
    decodeEntry pool decoder entry (entryContent (.entryKey key) (.entryValue type) first second) =
      run.map fun value => (keyText keyShown, value) := by
  have keyRead : readEntryPart pool decoder entry.fullName (.entryKey key) (.entryValue type)
      ⟨1, some first⟩ = some (.ok (.key keyShown)) := by
    simp only [readEntryPart, if_true]
    rw [show (Field.entryKey key).type = .scalar key from rfl, shown.read]
    rfl
  have valueRead : readEntryPart pool decoder entry.fullName (.entryKey key) (.entryValue type)
      ⟨2, some second⟩ = some (run.map .value) := by
    simp only [readEntryPart, show ¬ (2 : Nat) = 1 by decide, if_false, if_true]
    rw [show (Field.entryValue type).type = type from rfl,
      show (Field.entryValue type).name = "value" from rfl, read]
    rfl
  simp only [decodeEntry, fields, readPayload, split_entryContent firstFits secondFits, readRecords,
    keyRead, valueRead]
  cases run <;> rfl

theorem entriesOf_eq (entries : Json.Members) (distinct : (entries.map (·.1)).Nodup) :
    entriesOf (entries.map fun entry => .entry entry.1 entry.2) = entries := by
  have general (before entries : Json.Members)
      (distinct : ((before ++ entries).map (·.1)).Nodup) :
      (entries.map fun entry => Contribution.entry entry.1 entry.2).foldl addEntry before =
        before ++ entries := by
    induction entries generalizing before with
    | nil => exact (List.append_nil before).symm
    | cons entry rest inductionHypothesis =>
      have new : entry.1 ∉ before.map (·.1) := by
        intro known
        rw [List.map_append, List.nodup_append] at distinct
        exact distinct.2.2 entry.1 known entry.1 List.mem_cons_self rfl
      have same : before ++ entry :: rest = before ++ [entry] ++ rest := by
        rw [List.append_assoc, List.singleton_append]
      rw [same] at distinct ⊢
      rw [List.map_cons, List.foldl_cons]
      rw [addEntry, Json.Members.insert_of_new new]
      exact inductionHypothesis _ distinct
  exact general [] entries distinct

/-- The entries of a map field have distinct keys, and each comes from some value. -/
theorem entriesOf_spec (contributions : List Contribution) :
    ((entriesOf contributions).map (·.1)).Nodup ∧
      ∀ member ∈ entriesOf contributions, .entry member.1 member.2 ∈ contributions := by
  have general (before : Json.Members) (distinct : (before.map (·.1)).Nodup) :
      ((contributions.foldl addEntry before).map (·.1)).Nodup ∧
        ∀ member ∈ contributions.foldl addEntry before,
          member ∈ before ∨ .entry member.1 member.2 ∈ contributions := by
    induction contributions generalizing before with
    | nil => exact ⟨distinct, fun _ there => Or.inl there⟩
    | cons contribution rest inductionHypothesis =>
      rw [List.foldl_cons]
      cases contribution with
      | entry key value =>
        have longer : ((before.insert key value).map (·.1)).Nodup :=
          Json.Members.nodup_insert distinct
        rcases inductionHypothesis _ longer with ⟨restDistinct, sources⟩
        refine ⟨restDistinct, fun member there => ?_⟩
        rcases sources member there with before | later
        · rcases Json.Members.mem_insert before with same | old
          · subst same
            exact Or.inr List.mem_cons_self
          · exact Or.inl old
        · exact Or.inr (List.mem_cons_of_mem _ later)
      | _ =>
        rcases inductionHypothesis before distinct with ⟨restDistinct, sources⟩
        exact ⟨restDistinct, fun member there =>
          (sources member there).imp id (List.mem_cons_of_mem _)⟩
  rcases general [] List.nodup_nil with ⟨distinct, sources⟩
  refine ⟨distinct, fun member there => ?_⟩
  rcases sources member there with impossible | source
  · cases impossible
  · exact source

/-- A map field takes entries, and only from contents. -/
theorem contribution?_map_iff (shape : field.shape = .map id) {wire : Wire.Value}
    {contribution : Contribution} :
    contribution? pool decoder entryDecoder message field wire = some (.ok contribution) ↔
      ∃ content member, wire = .delimited content ∧
        decodeEntryAt pool entryDecoder id content = .ok member ∧
        contribution = .entry member.1 member.2 := by
  rw [contribution?.eq_def, shape]
  constructor
  · intro given
    cases wire with
    | delimited content =>
      have inside := Option.some.inj given
      cases run : decodeEntryAt pool entryDecoder id content with
      | error refusal =>
        rw [run] at inside
        cases inside
      | ok member =>
        rw [run] at inside
        exact ⟨content, member, rfl, run, (Except.ok.inj inside).symm⟩
    | varint word => cases given
    | fixed64 word => cases given
    | fixed32 word => cases given
  · rintro ⟨content, member, same, decoded, isEntry⟩
    subst same isEntry
    simp only [decoded]
    rfl

/-- Converted entries are written one by one. -/
theorem fieldLegible_entries (shape : field.shape = .map id) {given : Json.Value}
    {contents : List Bytes} (converted : convertMap pool field.name id given = .ok contents) :
    FieldLegible pool decoder entryDecoder message field given (contents.map .delimited) where
  records := by
    rw [valueRecords, fieldRecords, shape]
    simp only [converted, entryRecords_ok]
  readable := by
    intro wire member
    rcases List.mem_map.mp member with ⟨content, _, same⟩
    rw [← same, contribution?.eq_def, shape]
    exact Option.some_ne_none _

/-- Contents that are decoded give a map field their entries. -/
theorem forall₂_entries (shape : field.shape = .map id) {contents : List Bytes}
    {entries : Json.Members}
    (each : List.Forall₂ (fun content entry => decodeEntryAt pool entryDecoder id content =
      .ok entry) contents entries) :
    List.Forall₂ (fun wire contribution =>
      contribution? pool decoder entryDecoder message field wire = some (.ok contribution))
      (contents.map .delimited) (entries.map fun entry => .entry entry.1 entry.2) := by
  rw [List.forall₂_map_left_iff, List.forall₂_map_right_iff]
  apply each.imp
  intro content entry decoded
  exact (contribution?_map_iff shape).mpr ⟨content, entry, rfl, decoded, rfl⟩

/-- Entries with distinct keys are read as the entries of the field. -/
theorem entriesOf_contents (shape : field.shape = .map id) {contents : List Bytes}
    {entries : Json.Members} (distinct : (entries.map (·.1)).Nodup)
    (each : List.Forall₂ (fun content entry => decodeEntryAt pool entryDecoder id content =
      .ok entry) contents entries) :
    Contribute pool decoder entryDecoder message field (contents.map .delimited) ∧
      entriesOf (contributionsOf pool decoder entryDecoder message field
        (contents.map .delimited)) = entries := by
  refine ⟨.of_forall₂ (forall₂_entries shape each), ?_⟩
  rw [contributionsOf_eq (forall₂_entries shape each), entriesOf_eq entries distinct]

theorem fieldValue_entries (shape : field.shape = .map id) {contributions : List Contribution}
    {entries : Json.Members} (same : entriesOf contributions = entries) :
    fieldValue pool .plain decoder field contributions =
      .ok (if entries = [] then none else some (.object entries)) := by
  rw [fieldValue, shape]
  dsimp only
  rw [same]
  cases entries <;> rfl

end Maps

end SchemaRecords.Payload
