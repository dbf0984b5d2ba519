import SchemaRecords.Proofs.Json.DistinctKeys
import SchemaRecords.Proofs.Payload.CarriedValues
import SchemaRecords.Proofs.Schema.GivenCharacters
import SchemaRecords.Proofs.Schema.LinkedUnits

/-!
# Decoded documents can be encoded

The document of a payload can be encoded, and what it is encoded to decodes to the same
document.  The two payloads may differ in many ways: fields may come in any order and more
than once, numbers may be packed or not and take more bytes than they need, and there may be
anything in between that the schema does not know.  None of this is visible in the document.
Every document can be encoded; that it decodes again is said of what is encoded to less than 2^32
bytes.

The argument follows the levels of the decoder.  A value in the document of some level comes
from the value of a record, or it is the document of a lower level; both can be written and
are read from there again, and so is every field that is built from them.
-/

namespace SchemaRecords
namespace Payload

open SchemaRecords.Schema

/-- A decoder whose documents can be encoded, and decoded again from there. -/
def RoundTrips (pool : Pool) (decoder : Decoder) : Prop :=
  ∀ id message, pool.message? id = some message → message.isMapEntry = false →
    pool.Regular message → ∀ payload document, decoder message payload = .ok document →
      ∃ members written, document = .object members ∧
        encodeMembers pool message members = .ok written ∧
        (written.length < 2 ^ 32 → decoder message written = .ok document)

/-- A value of a document that can be written and is read from there again. -/
def Returns (pool : Pool) (decoder : Decoder) (type : ValueType) (value : Json.Value) : Prop :=
  ∃ wire, Written pool type value wire ∧ (wire.Fits → Reads pool decoder type wire value)

/-! ## Values -/

section Values

variable {pool : Pool} {decoder : Decoder} {type : ValueType}

theorem Shown.returns (simple : IsSimple pool type) {value : Json.Value} {wire : Wire.Value}
    (shown : Shown pool type value wire) : Returns pool decoder type value :=
  ⟨wire, shown.written simple, fun _ => shown.reads⟩

theorem returns_of_decoded (nested : RoundTrips pool decoder) {id : MessageId} {message : Message}
    (found : pool.message? id = some message) (notEntry : message.isMapEntry = false)
    (regular : pool.Regular message) {payload : Bytes} {document : Json.Value}
    (decoded : decoder message payload = .ok document) :
    Returns pool decoder (.message id) document := by
  rcases nested id message found notEntry regular payload document decoded with
    ⟨members, written, same, encoded, again⟩
  subst same
  refine ⟨.delimited written, ⟨rfl, rfl, fun field => ?_⟩, fun short => ?_⟩
  · rw [convert_object found, encoded]
    rfl
  · exact (reads_message found).mpr (again short)

/-- Whatever was read can be written. -/
theorem returns_of_reads (nested : RoundTrips pool decoder) (regular : IsRegular pool type)
    {wire : Wire.Value} {value : Json.Value} (reads : Reads pool decoder type wire value) :
    Returns pool decoder type value := by
  cases regular with
  | simple simple =>
    rcases exists_of_readValue? simple (reads "" "") with ⟨written, shown⟩
    exact shown.returns simple
  | message found notEntry regular =>
    cases wire with
    | delimited content =>
      exact returns_of_decoded nested found notEntry regular ((reads_message found).mp reads)
    | varint word => cases reads "" ""
    | fixed64 word => cases reads "" ""
    | fixed32 word => cases reads "" ""

/-- What is shown where a map entry has no value can be written. -/
theorem returns_of_decodeMissing (nested : RoundTrips pool decoder) (regular : IsRegular pool type)
    {value : Json.Value} (decoded : decodeMissing pool decoder type = .ok value) :
    Returns pool decoder type value := by
  cases regular with
  | simple simple =>
    have same : decodeMissing pool decoder type = .ok (renderDefault pool type) := by
      cases type with
      | message id => cases simple
      | _ => rfl
    rw [same] at decoded
    cases decoded
    exact (shown_zero simple).returns simple
  | message found notEntry regular =>
    simp only [decodeMissing, Decoder.follow, found] at decoded
    exact returns_of_decoded nested found notEntry regular decoded

theorem exists_wires {values : List Json.Value}
    (each : ∀ value ∈ values, Returns pool decoder type value) :
    ∃ wires, List.Forall₂ (Written pool type) values wires ∧
      ((∀ wire ∈ wires, wire.Fits) → List.Forall₂ (Reads pool decoder type) wires values) := by
  induction values with
  | nil => exact ⟨[], .nil, fun _ => .nil⟩
  | cons value rest inductionHypothesis =>
    rcases each value List.mem_cons_self with ⟨wire, written, reads⟩
    rcases inductionHypothesis fun other member => each other (List.mem_cons_of_mem _ member) with
      ⟨wires, restWritten, restReads⟩
    refine ⟨wire :: wires, .cons written restWritten, fun fits => ?_⟩
    have restFits := fun other member => fits other (List.mem_cons_of_mem _ member)
    exact .cons (reads (fits wire List.mem_cons_self)) (restReads restFits)

end Values

/-! ## Fields -/

/-- A value of a field that can be written as some values on the wire and is shown again when
these are read. -/
structure FieldReturns (pool : Pool) (decoder entryDecoder : Decoder) (message : Message)
    (field : Field) (value : Json.Value) (wires : List Wire.Value) : Prop where
  notNull : value.isNull = false
  records : valueRecords pool field value = .ok (writtenValues field wires)
  again : (∀ wire ∈ wires, wire.Fits) → Contribute pool decoder entryDecoder message field wires ∧
    fieldValue pool .plain decoder field
      (contributionsOf pool decoder entryDecoder message field wires) = .ok (some value)

section Fields

variable {pool : Pool} {decoder entryDecoder : Decoder} {message : Message} {field : Field}

/-- A single value of a simple type. -/
theorem exists_fieldReturns_simple {type : ValueType} {explicit : Bool}
    (shape : field.shape = .singular type explicit) (simple : IsSimple pool type)
    (zeroFirst : field.hasPresence = false → ∀ id enumeration, type = .enumeration id →
      pool.enumeration? id = some enumeration → enumeration.defaultNumber = 0)
    {contributions : List Contribution}
    (sources : Sourced pool decoder entryDecoder message field contributions) {value : Json.Value}
    (isShown : fieldValue pool .plain decoder field contributions = .ok (some value)) :
    ∃ wires, FieldReturns pool decoder entryDecoder message field value wires := by
  rw [fieldValue_simple shape simple] at isShown
  cases last : (valuesOf contributions).getLast? with
  | none =>
    rw [last] at isShown
    cases isShown
  | some final =>
    simp only [last] at isShown
    split at isShown
    · cases isShown
    · rename_i kept
      cases isShown
      have isContribution : Contribution.value value ∈ contributions := by
        rcases List.mem_filterMap.mp (List.mem_of_getLast? last) with ⟨contribution, there, same⟩
        cases contribution with
        | value held => exact Option.some.inj same ▸ there
        | _ => cases same
      rcases sources _ isContribution with ⟨source, given⟩
      rw [contribution?_simple shape simple] at given
      rcases Option.map_eq_some_iff.mp given with ⟨run, read, mapped⟩
      rcases Outcome.map_eq_ok_iff.mp mapped with ⟨held, isHeld, same⟩
      cases same
      subst isHeld
      rcases exists_of_readValue? simple read with ⟨wire, shown⟩
      -- Without presence the value is shown, so it is no default and will be written.
      have notZero : (!field.hasPresence && isZero wire) = false := by
        cases presence : field.hasPresence with
        | true => rfl
        | false =>
          rw [presence, shown.default (zeroFirst presence)] at kept
          exact Bool.eq_false_iff.mpr kept
      rcases fieldValue_shown shape simple shown with ⟨contribute, again⟩
      refine ⟨[wire], shown.notNull, ?_, fun _ => ⟨contribute, again.trans (if_neg kept)⟩⟩
      rw [valueRecords_single shape (shown.written simple), notZero]
      rfl

/-- A single message.  Its contents are joined before they are decoded. -/
theorem exists_fieldReturns_message (nested : RoundTrips pool decoder) {id : MessageId}
    {explicit : Bool} (shape : field.shape = .singular (.message id) explicit) {next : Message}
    (found : pool.message? id = some next) (notEntry : next.isMapEntry = false)
    (regular : pool.Regular next) {contributions : List Contribution} {value : Json.Value}
    (isShown : fieldValue pool .plain decoder field contributions = .ok (some value)) :
    ∃ wires, FieldReturns pool decoder entryDecoder message field value wires := by
  have decoded : ∃ content, decoder next content = .ok value := by
    rw [fieldValue, shape] at isShown
    dsimp only at isShown
    split at isShown
    · cases isShown
    · rcases Outcome.map_eq_ok_iff.mp isShown with ⟨document, run, same⟩
      rw [Decoder.follow, found] at run
      dsimp only at run
      cases outcome : decoder next (contentsOf contributions).flatten with
      | error refusal =>
        rw [outcome] at run
        cases run
      | ok result =>
        rw [outcome] at run
        cases run
        cases same
        exact ⟨_, outcome⟩
  rcases decoded with ⟨content, decoded⟩
  rcases returns_of_decoded nested found notEntry regular decoded with ⟨wire, written, reads⟩
  have layout := written.layout
  cases wire with
  | delimited content =>
    rcases fieldValue_content shape found content with ⟨contribute, again⟩
    refine ⟨[.delimited content], written.notNull, ?_, fun fits => ⟨contribute, ?_⟩⟩
    · rw [valueRecords_single shape written, hasPresence_of_message shape]
      rfl
    · rw [again, (reads_message found).mp (reads (fits _ List.mem_cons_self))]
      rfl
  | varint word => cases layout
  | fixed64 word => cases layout
  | fixed32 word => cases layout

theorem fieldValue_repeated {type : ValueType} {packed : Bool}
    (shape : field.shape = .repeated type packed) {contributions : List Contribution}
    {value : Json.Value}
    (isShown : fieldValue pool .plain decoder field contributions = .ok (some value)) :
    elementsOf contributions ≠ [] ∧ value = .array (elementsOf contributions) := by
  rw [fieldValue, shape] at isShown
  dsimp only at isShown
  split at isShown
  · cases isShown
  · rename_i some
    exact ⟨some, (Option.some.inj (Except.ok.inj isShown)).symm⟩

/-- Every element of a repeated field was read from some value. -/
theorem reads_of_elements {type : ValueType} {packed : Bool}
    (shape : field.shape = .repeated type packed) {contributions : List Contribution}
    (sources : Sourced pool decoder entryDecoder message field contributions) :
    ∀ value ∈ elementsOf contributions, ∃ wire, Reads pool decoder type wire value := by
  intro value member
  rcases List.mem_flatMap.mp member with ⟨contribution, there, isElement⟩
  cases contribution with
  | elements values =>
    rcases sources _ there with ⟨source, given⟩
    rw [contribution?.eq_def, shape] at given
    have one {run : Option (Decoded Json.Value)}
        (mapped : run.map (·.map fun element => Contribution.elements [element]) =
          some (.ok (.elements values))) : run = some (.ok value) := by
      rcases Option.map_eq_some_iff.mp mapped with ⟨outcome, isOutcome, same⟩
      rcases Outcome.map_eq_ok_iff.mp same with ⟨element, isElementOf, equal⟩
      cases equal
      rw [isOutcome, isElementOf, List.mem_singleton.mp isElement]
    cases source with
    | delimited content =>
      dsimp only at given
      by_cases packable : type.isPackable = true
      · rw [if_pos packable] at given
        rcases Outcome.map_eq_ok_iff.mp (Option.some.inj given) with ⟨read, packedRead, same⟩
        cases same
        unfold readPacked at packedRead
        split at packedRead
        · rename_i wires _
          cases packedRead
          rcases List.mem_filterMap.mp isElement with ⟨wire, _, rendered⟩
          refine ⟨wire, fun name fieldName => ?_⟩
          rw [readValue?_of_isPackable packable, rendered]
          rfl
        · cases packedRead
      · rw [if_neg packable] at given
        exact ⟨_, reads_of_readValue? (one given)⟩
    | varint word => exact ⟨_, reads_of_readValue? (one given)⟩
    | fixed64 word => exact ⟨_, reads_of_readValue? (one given)⟩
    | fixed32 word => exact ⟨_, reads_of_readValue? (one given)⟩
  | _ => cases isElement

theorem exists_fieldReturns_repeated (nested : RoundTrips pool decoder) {type : ValueType}
    {packed : Bool} (shape : field.shape = .repeated type packed)
    (packable : packed = true → type.isPackable = true) (regular : IsRegular pool type)
    {contributions : List Contribution}
    (sources : Sourced pool decoder entryDecoder message field contributions) {value : Json.Value}
    (isShown : fieldValue pool .plain decoder field contributions = .ok (some value)) :
    ∃ wires, FieldReturns pool decoder entryDecoder message field value wires := by
  rcases fieldValue_repeated shape isShown with ⟨nonempty, same⟩
  subst same
  have each : ∀ element ∈ elementsOf contributions, Returns pool decoder type element := by
    intro element member
    rcases reads_of_elements shape sources element member with ⟨wire, reads⟩
    exact returns_of_reads nested regular reads
  rcases exists_wires each with ⟨wires, written, reads⟩
  have layout := layout_of_forall₂ written
  refine ⟨blocks packed wires, rfl, valueRecords_repeated shape written, fun fits => ?_⟩
  have elementsFit := fits_of_fits_blocks packable layout fits
  rcases elementsOf_blocks shape packable layout (reads elementsFit) with ⟨contribute, elements⟩
  refine ⟨contribute, ?_⟩
  rw [fieldValue_elements shape elements, if_neg nonempty]

end Fields

/-! ## Maps -/

section Maps

variable {pool : Pool} {decoder entryDecoder : Decoder} {message entry : Message} {field : Field}
  {id : MessageId} {key : Scalar} {type : ValueType}

theorem exists_of_readEntryPart {record : Wire.Record} {part : EntryPart}
    (read : readEntryPart pool decoder entry.fullName (.entryKey key) (.entryValue type) record =
      some (.ok part)) :
    (∃ wire value, part = .key value ∧ Reads pool decoder (.scalar key) wire value) ∨
      ∃ wire value, part = .value value ∧ Reads pool decoder type wire value := by
  unfold readEntryPart at read
  split at read
  · cases read
  · rename_i wire _
    split at read
    · rcases Option.map_eq_some_iff.mp read with ⟨run, isRun, mapped⟩
      rcases Outcome.map_eq_ok_iff.mp mapped with ⟨value, ok, same⟩
      exact Or.inl ⟨wire, value, same.symm, reads_of_readValue? (ok ▸ isRun)⟩
    · split at read
      · rcases Option.map_eq_some_iff.mp read with ⟨run, isRun, mapped⟩
        rcases Outcome.map_eq_ok_iff.mp mapped with ⟨value, ok, same⟩
        exact Or.inr ⟨wire, value, same.symm, reads_of_readValue? (ok ▸ isRun)⟩
      · cases read

/-- The key of a decoded entry is the text of a key, and its value can be written. -/
theorem exists_of_decodeEntry (nested : RoundTrips pool decoder)
    (fields : entry.fields = [.entryKey key, .entryValue type]) (legal : key.isMapKey = true)
    (regular : IsRegular pool type) {payload : Bytes} {result : String × Json.Value}
    (decoded : decodeEntry pool decoder entry payload = .ok result) :
    (∃ value wire, Shown pool (.scalar key) value wire ∧ result.1 = keyText value) ∧
      Returns pool decoder type result.2 := by
  have simple : IsSimple pool (.scalar key) := isSimple_key legal
  simp only [decodeEntry, fields] at decoded
  rcases Outcome.bind_eq_ok_iff.mp decoded with ⟨parts, read, rest⟩
  have sources : ∀ part ∈ parts,
      (∃ wire value, part = .key value ∧ Reads pool decoder (.scalar key) wire value) ∨
        ∃ wire value, part = .value value ∧ Reads pool decoder type wire value := by
    intro part there
    rcases exists_of_readRecords (readPayload_eq_ok_iff.mp read).1 part there with ⟨record, given⟩
    exact exists_of_readEntryPart given
  have outcome : ∃ value, Returns pool decoder type value ∧
      (keyText ((keysOf parts).getLast?.getD (renderDefault pool (.scalar key))), value) =
        result := by
    cases last : (entryValuesOf parts).getLast? with
    | none =>
      rw [last] at rest
      rcases Outcome.bind_eq_ok_iff.mp rest with ⟨value, run, same⟩
      exact ⟨value, returns_of_decodeMissing nested regular run, Except.ok.inj same⟩
    | some final =>
      rw [last] at rest
      rcases Outcome.bind_eq_ok_iff.mp rest with ⟨value, run, same⟩
      cases run
      refine ⟨final, ?_, Except.ok.inj same⟩
      rcases List.mem_filterMap.mp (List.mem_of_getLast? last) with ⟨part, there, isEntryValue⟩
      rcases sources part there with ⟨wire, held, isKey, _⟩ | ⟨wire, held, isValue, reads⟩
      · subst isKey
        cases isEntryValue
      · subst isValue
        cases isEntryValue
        exact returns_of_reads nested regular reads
  rcases outcome with ⟨value, returns, same⟩
  subst same
  refine ⟨?_, returns⟩
  cases last : (keysOf parts).getLast? with
  | none => exact ⟨_, _, shown_zero simple, rfl⟩
  | some final =>
    rcases List.mem_filterMap.mp (List.mem_of_getLast? last) with ⟨part, there, isKey⟩
    rcases sources part there with ⟨wire, held, same, reads⟩ | ⟨wire, held, same, _⟩
    · subst same
      cases isKey
      rcases exists_of_readValue? simple (reads "" "") with ⟨written, shown⟩
      exact ⟨_, written, shown, rfl⟩
    · subst same
      cases isKey

/-- A decoded entry can be written and is decoded from there again. -/
theorem exists_content (nested : RoundTrips pool decoder) (found : pool.message? id = some entry)
    (fields : entry.fields = [.entryKey key, .entryValue type]) (legal : key.isMapKey = true)
    (regular : IsRegular pool type) {payload : Bytes} {member : String × Json.Value}
    (decoded : decodeEntryAt pool decoder id payload = .ok member) :
    ∃ content, EntryWritten pool key type member content ∧
      (content.length < 2 ^ 32 → decodeEntryAt pool decoder id content = .ok member) := by
  simp only [decodeEntryAt, found] at decoded ⊢
  rcases exists_of_decodeEntry nested fields legal regular decoded with
    ⟨⟨keyShown, first, shown, isText⟩, second, written, reads⟩
  have keyWritten : convertKey pool (.entryKey key) member.1 = .ok first := by
    rw [isText]
    exact shown.key legal _
  refine ⟨_, ⟨first, second, keyWritten, written, rfl⟩, fun short => ?_⟩
  rcases fits_of_entryContent short with ⟨firstFits, secondFits⟩
  rw [decodeEntry_entryContent fields firstFits secondFits shown (reads secondFits _ _), ← isText]
  rfl

theorem exists_contents (nested : RoundTrips pool decoder) (found : pool.message? id = some entry)
    (fields : entry.fields = [.entryKey key, .entryValue type]) (legal : key.isMapKey = true)
    (regular : IsRegular pool type) {entries : Json.Members}
    (sources : ∀ member ∈ entries, ∃ payload,
      decodeEntryAt pool decoder id payload = .ok member) :
    ∃ contents, List.Forall₂ (EntryWritten pool key type) entries contents ∧
      ((∀ content ∈ contents, content.length < 2 ^ 32) →
        List.Forall₂ (fun content member => decodeEntryAt pool decoder id content = .ok member)
          contents entries) := by
  induction entries with
  | nil => exact ⟨[], .nil, fun _ => .nil⟩
  | cons member rest inductionHypothesis =>
    rcases sources member List.mem_cons_self with ⟨payload, decoded⟩
    rcases exists_content nested found fields legal regular decoded with
      ⟨content, written, again⟩
    rcases inductionHypothesis fun other there => sources other (List.mem_cons_of_mem _ there) with
      ⟨contents, restWritten, restAgain⟩
    refine ⟨content :: contents, .cons written restWritten, fun short => ?_⟩
    have restShort := fun other there => short other (List.mem_cons_of_mem _ there)
    exact .cons (again (short content List.mem_cons_self)) (restAgain restShort)

theorem fieldValue_map (shape : field.shape = .map id) {contributions : List Contribution}
    {value : Json.Value}
    (isShown : fieldValue pool .plain decoder field contributions = .ok (some value)) :
    entriesOf contributions ≠ [] ∧ value = .object (entriesOf contributions) := by
  rw [fieldValue, shape] at isShown
  dsimp only at isShown
  split at isShown
  · cases isShown
  · rename_i some
    exact ⟨some, (Option.some.inj (Except.ok.inj isShown)).symm⟩

theorem exists_fieldReturns_map (nested : RoundTrips pool entryDecoder)
    (shape : field.shape = .map id) (found : pool.message? id = some entry)
    (fields : entry.fields = [.entryKey key, .entryValue type]) (legal : key.isMapKey = true)
    (regular : IsRegular pool type) {contributions : List Contribution}
    (sources : Sourced pool decoder entryDecoder message field contributions) {value : Json.Value}
    (isShown : fieldValue pool .plain decoder field contributions = .ok (some value)) :
    ∃ wires, FieldReturns pool decoder entryDecoder message field value wires := by
  rcases fieldValue_map shape isShown with ⟨nonempty, same⟩
  subst same
  rcases entriesOf_spec contributions with ⟨distinct, members⟩
  have decoded : ∀ member ∈ entriesOf contributions, ∃ payload,
      decodeEntryAt pool entryDecoder id payload = .ok member := by
    intro member there
    rcases sources _ (members member there) with ⟨source, given⟩
    rcases (contribution?_map_iff shape).mp given with ⟨content, result, _, run, same⟩
    have parts := Contribution.entry.inj same
    exact ⟨content, run.trans (congrArg Except.ok (Prod.ext parts.1.symm parts.2.symm))⟩
  rcases exists_contents nested found fields legal regular decoded with ⟨contents, written, again⟩
  refine ⟨contents.map .delimited, rfl, valueRecords_map shape found fields written, fun fits => ?_⟩
  have short : ∀ content ∈ contents, content.length < 2 ^ 32 := fun content there =>
    fits _ (List.mem_map_of_mem there)
  rcases entriesOf_contents shape distinct (again short) with ⟨contribute, same⟩
  refine ⟨contribute, ?_⟩
  rw [fieldValue_entries shape same, if_neg nonempty]

end Maps

/-! ## Messages -/

section Messages

variable {pool : Pool} {decoder entryDecoder : Decoder}

/-- A value that a regular field shows can be written and is shown again. -/
theorem exists_fieldReturns {message : Message} {field : Field} (regular : RegularField pool field)
    (nested : RoundTrips pool decoder) (nestedEntries : RoundTrips pool entryDecoder)
    {contributions : List Contribution}
    (sources : Sourced pool decoder entryDecoder message field contributions) {value : Json.Value}
    (isShown : fieldValue pool .plain decoder field contributions = .ok (some value)) :
    ∃ wires, FieldReturns pool decoder entryDecoder message field value wires := by
  cases regular with
  | simple shape simple zeroFirst =>
    exact exists_fieldReturns_simple shape simple zeroFirst sources isShown
  | message shape found notEntry regular =>
    exact exists_fieldReturns_message nested shape found notEntry regular isShown
  | repeated shape packable regular =>
    exact exists_fieldReturns_repeated nested shape packable regular sources isShown
  | map shape found fields legal regular =>
    exact exists_fieldReturns_map nestedEntries shape found fields legal regular sources isShown

theorem RoundTrips.decodeLevel (wellFormed : pool.WellFormed) (nested : RoundTrips pool decoder)
    (nestedEntries : RoundTrips pool entryDecoder) :
    RoundTrips pool (decodeLevel pool .plain decoder entryDecoder) := by
  intro id message found notEntry regular payload document decoded
  have there : message ∈ pool.messages := List.mem_of_getElem? found
  have indexed := (wellFormed.messages message there).indexed
  rcases exists_of_decodeLevel indexed decoded with
    ⟨contributions, shown, sources, exclusive, values, same⟩
  have each (field : Field) (value : Json.Value) (isShown : shown field = some value) :
      ∃ wires, field ∈ message.fields →
        FieldReturns pool decoder entryDecoder message field value wires := by
    by_cases member : field ∈ message.fields
    · rcases exists_fieldReturns (regularField wellFormed there notEntry regular member) nested
        nestedEntries (sources field member) (isShown ▸ values field member) with ⟨wires, returns⟩
      exact ⟨wires, fun _ => returns⟩
    · exact ⟨[], fun isMember => absurd isMember member⟩
  rcases exists_wires_of_held each with ⟨wires, absent, returns⟩
  have shownExclusive : Exclusive message fun field => (shown field).isSome = true := by
    apply exclusive.imp
    intro field member isSome none
    have nothing := values field member
    rw [none, fieldValue_nil] at nothing
    rw [← Except.ok.inj nothing] at isSome
    cases isSome
  refine ⟨_, writtenFields message wires, same, ?_, fun short => ?_⟩
  · apply encodeMembers_shownMembers indexed
    · intro field member value isShown
      have law := returns field value isShown member
      exact ⟨law.notNull, law.records⟩
    · exact fun field _ => absent field
    · exact shownExclusive
  · have fits := fits_of_length_writtenFields short
    rw [same]
    apply decodeLevel_writtenFields indexed fits
    · intro field member
      cases isShown : shown field with
      | none =>
        rw [absent field isShown]
        exact fun _ impossible => nomatch impossible
      | some value => exact ((returns field value isShown member).again (fits field member)).1
    · apply shownExclusive.imp
      intro field _ some
      cases isShown : shown field with
      | none => exact absurd (absent field isShown) some
      | some value => rfl
    · intro field member
      cases isShown : shown field with
      | none =>
        rw [absent field isShown]
        exact fieldValue_nil pool decoder field
      | some value => exact ((returns field value isShown member).again (fits field member)).2

/-- By induction on the levels.  Messages lose one of them, entries two. -/
theorem roundTrips_decodeWithin (wellFormed : pool.WellFormed) (levels : Nat) :
    RoundTrips pool (decodeWithin pool .plain levels) := by
  have refused : RoundTrips pool refuse := fun _ _ _ _ _ _ _ impossible => nomatch impossible
  induction levels using decodeWithin.induct with
  | case1 => exact refused
  | case2 => exact RoundTrips.decodeLevel wellFormed refused refused
  | case3 levels below entriesBelow => exact RoundTrips.decodeLevel wellFormed below entriesBelow

end Messages

end Payload

open Schema Payload

/-- Whatever was registered, the document of a payload of a regular message can be encoded,
and what it is encoded to decodes to the same document. -/
theorem decode_encode_decode (attempts : List (String × String)) {name : String}
    {message : Message} (found : (Pool.registerAll attempts).findMessage? name = some message)
    (regular : (Pool.registerAll attempts).Regular message) {payload : Bytes}
    {document : Json.Value}
    (decoded : decode (.registerAll attempts) .plain name payload = .ok document) :
    ∃ written, encode (.registerAll attempts) name document = .ok written ∧
      (written.length < 2 ^ 32 →
        decode (.registerAll attempts) .plain name written = .ok document) := by
  have wellFormed := Pool.wellFormed_registerAll attempts
  rcases wellFormed.exists_of_findMessage? found with ⟨id, there, notEntry⟩
  simp only [decode, found] at decoded ⊢
  rcases roundTrips_decodeWithin wellFormed nestingLimit id message there notEntry regular payload
    document decoded with ⟨members, written, same, encoded, again⟩
  subst same
  exact ⟨written, (encode_object found members).trans encoded, again⟩

/-- A payload that is far from canonical: its fields come in no order, one is given twice, a
number is longer than it needs to be, elements are both packed and not, an entry has no key, and
one field is unknown. -/
theorem decode_encode_decode_node :
    ∃ document, decode (.registerAll nodeAttempts) .plain "Node"
        [26, 1, 97, 8, 135, 0, 10, 1, 2, 120, 3, 18, 5, 18, 3, 26, 1, 98, 26, 1, 99] =
          .ok document ∧
      document.text =
        "\x7b\"marks\":[7,2],\"links\":\x7b\"0\":\x7b\"name\":\"b\"\x7d\x7d,\"name\":\"c\"\x7d" ∧
      encode (.registerAll nodeAttempts) "Node" document =
        .ok [8, 7, 8, 2, 18, 7, 8, 0, 18, 3, 26, 1, 98, 26, 1, 99] ∧
      decode (.registerAll nodeAttempts) .plain "Node"
        [8, 7, 8, 2, 18, 7, 8, 0, 18, 3, 26, 1, 98, 26, 1, 99] = .ok document := by
  have isShown : (decode (.registerAll nodeAttempts) .plain "Node"
      [26, 1, 97, 8, 135, 0, 10, 1, 2, 120, 3, 18, 5, 18, 3, 26, 1, 98, 26, 1, 99]).toOption.map
        (fun document =>
          (document.text, (encode (.registerAll nodeAttempts) "Node" document).toOption)) =
      some ("\x7b\"marks\":[7,2],\"links\":\x7b\"0\":\x7b\"name\":\"b\"\x7d\x7d,\"name\":\"c\"\x7d",
        some [8, 7, 8, 2, 18, 7, 8, 0, 18, 3, 26, 1, 98, 26, 1, 99]) := by
    rw [nodeAttempts, Pool.registerAll_ofList]
    decide +kernel
  have isFound : ((Pool.registerAll nodeAttempts).findMessage? "Node").isSome = true := by
    rw [nodeAttempts, Pool.registerAll_ofList]
    decide +kernel
  rcases Option.map_eq_some_iff.mp isShown with ⟨document, isDocument, same⟩
  rcases Prod.mk.inj same with ⟨text, isEncoded⟩
  rcases Option.isSome_iff_exists.mp isFound with ⟨message, found⟩
  have decoded := Outcome.toOption_eq_some_iff.mp isDocument
  have encoded := Outcome.toOption_eq_some_iff.mp isEncoded
  rcases decode_encode_decode nodeAttempts found (regular_of_nodeAttempts found) decoded with
    ⟨written, isWritten, again⟩
  cases encoded.symm.trans isWritten
  exact ⟨document, decoded, text, encoded, again (by decide)⟩

end SchemaRecords
