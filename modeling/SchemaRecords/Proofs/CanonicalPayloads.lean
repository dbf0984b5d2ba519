import SchemaRecords.Proofs.Json.WrittenDocuments
import SchemaRecords.Proofs.Payload.CarriedValues
import SchemaRecords.Proofs.Schema.GivenCharacters
import SchemaRecords.Proofs.Schema.LinkedUnits

/-!
# Payloads of documents are canonical

A document may spell a value in many ways: by either name of a field, as a number or as its
numeral, by the name or the number of an enumeration, in any form of base64, or as `null` where
that means zero.  All of them are written in the same way, and the document that is read back
spells the value in the way that the decoder prefers.  So the payload of a document is the
payload of its own document.

Keys of maps are the exception.  Keys of a document are texts, and two of them may denote the
same integer; both entries are written, but only the last is read.  A document is therefore
asked to use no two such keys in one map object, wherever it lies inside of it.  That its keys
are distinct as texts holds of every document that was read.

All this is about payloads of less than 2^32 bytes.  A longer one may hold a content of which the
reader takes only a part, so that the document which it shows is that of other records.
-/

namespace SchemaRecords
namespace Payload

open SchemaRecords.Json SchemaRecords.Number SchemaRecords.Schema

/-! ## Map objects inside a document -/

/-- A map object somewhere inside a document of a message, with the type of its keys. -/
inductive MapInside (pool : Pool) (key : Scalar) (entries : Json.Members) :
    Message → Json.Value → Prop
  | here {message entry : Message} {members : Json.Members} {name : String} {field : Field}
      {id : MessageId} {type : ValueType} (member : (name, .object entries) ∈ members)
      (named : message.fieldByName? name = some field) (shape : field.shape = .map id)
      (found : pool.message? id = some entry)
      (fields : entry.fields = [.entryKey key, .entryValue type]) :
      MapInside pool key entries message (.object members)
  | single {message next : Message} {members : Json.Members} {name : String} {field : Field}
      {id : MessageId} {explicit : Bool} {inner : Json.Value} (member : (name, inner) ∈ members)
      (named : message.fieldByName? name = some field)
      (shape : field.shape = .singular (.message id) explicit)
      (found : pool.message? id = some next) (inside : MapInside pool key entries next inner) :
      MapInside pool key entries message (.object members)
  | item {message next : Message} {members : Json.Members} {name : String} {field : Field}
      {id : MessageId} {packed : Bool} {items : List Json.Value} {inner : Json.Value}
      (member : (name, .array items) ∈ members)
      (named : message.fieldByName? name = some field)
      (shape : field.shape = .repeated (.message id) packed) (item : inner ∈ items)
      (found : pool.message? id = some next) (inside : MapInside pool key entries next inner) :
      MapInside pool key entries message (.object members)
  | value {message entry next : Message} {members others : Json.Members} {name text : String}
      {field : Field} {id nextId : MessageId} {other : Scalar} {inner : Json.Value}
      (member : (name, .object others) ∈ members)
      (named : message.fieldByName? name = some field) (shape : field.shape = .map id)
      (entryFound : pool.message? id = some entry)
      (fields : entry.fields = [.entryKey other, .entryValue (.message nextId)])
      (pair : (text, inner) ∈ others) (found : pool.message? nextId = some next)
      (inside : MapInside pool key entries next inner) :
      MapInside pool key entries message (.object members)

/-- No two keys of a map of integers inside a document denote the same integer. -/
def IntegersApart (pool : Pool) (message : Message) (document : Json.Value) : Prop :=
  ∀ key entries, MapInside pool key entries message document → isIntegerType key = true →
    entries.Pairwise fun first second => ∀ n, Denotes first.1 n → ¬ Denotes second.1 n

/-- The keys of a map object are distinct, and they denote distinct integers if they denote any. -/
structure KeysApart (key : Scalar) (entries : Json.Members) : Prop where
  distinct : (entries.map (·.1)).Nodup
  integers : isIntegerType key = true →
    entries.Pairwise fun first second => ∀ n, Denotes first.1 n → ¬ Denotes second.1 n

/-- The keys of every map object inside a document are apart. -/
def MapsApart (pool : Pool) (message : Message) (document : Json.Value) : Prop :=
  ∀ key entries, MapInside pool key entries message document → KeysApart key entries

/-- A map object is an object of the document, but never the document itself. -/
theorem MapInside.mem_objects {pool : Pool} {key : Scalar} {entries : Json.Members}
    {message : Message} {document : Json.Value}
    (inside : MapInside pool key entries message document) :
    ∃ members, document = .object members ∧ entries ∈ objectsOfMembers members := by
  induction inside with
  | here member =>
    have own : entries ∈ objectsOf (.object entries) := by
      rw [objectsOf]
      exact List.mem_cons_self
    exact ⟨_, rfl, mem_objectsOfMembers_iff.mpr ⟨_, member, own⟩⟩
  | single member _ _ _ _ inductionHypothesis =>
    rcases inductionHypothesis with ⟨inner, same, within⟩
    exact ⟨_, rfl, mem_objectsOfMembers_iff.mpr ⟨_, member, same ▸ mem_objectsOf_object within⟩⟩
  | item member _ _ isItem _ _ inductionHypothesis =>
    rcases inductionHypothesis with ⟨inner, same, within⟩
    have ofItems := mem_objectsOfItems_iff.mpr ⟨_, isItem, same ▸ mem_objectsOf_object within⟩
    refine ⟨_, rfl, mem_objectsOfMembers_iff.mpr ⟨_, member, ?_⟩⟩
    rw [objectsOf]
    exact ofItems
  | value member _ _ _ _ pair _ _ inductionHypothesis =>
    rcases inductionHypothesis with ⟨inner, same, within⟩
    have ofEntries := mem_objectsOfMembers_iff.mpr ⟨_, pair, same ▸ mem_objectsOf_object within⟩
    exact ⟨_, rfl, mem_objectsOfMembers_iff.mpr ⟨_, member, mem_objectsOf_object ofEntries⟩⟩

theorem mapsApart_of_keysDistinct {pool : Pool} {message : Message} {document : Json.Value}
    (distinct : document.KeysDistinct) (apart : IntegersApart pool message document) :
    MapsApart pool message document := by
  intro key entries inside
  rcases inside.mem_objects with ⟨members, same, within⟩
  exact ⟨distinct entries (same ▸ mem_objectsOf_object within), apart key entries inside⟩

theorem mapsApart_nil (pool : Pool) (message : Message) : MapsApart pool message (.object []) := by
  intro key entries inside
  rcases inside.mem_objects with ⟨_, same, within⟩
  cases same
  cases within

/-- A decoder whose documents have the payloads that they were decoded from, if these are
payloads of documents. -/
def Reproduces (pool : Pool) (decoder : Decoder) : Prop :=
  ∀ id message, pool.message? id = some message → message.isMapEntry = false →
    pool.Regular message → ∀ members payload document, MapsApart pool message (.object members) →
      encodeMembers pool message members = .ok payload → payload.length < 2 ^ 32 →
        decoder message payload = .ok document →
          ∃ shown, document = .object shown ∧ encodeMembers pool message shown = .ok payload

/-- A value on the wire such that, if it fits, whatever is read from it is written as it again. -/
structure Settles (pool : Pool) (decoder : Decoder) (type : ValueType) (wire : Wire.Value) :
    Prop extends Legible pool decoder type wire where
  written : wire.Fits → ∀ value, Reads pool decoder type wire value → Written pool type value wire

/-! ## Values -/

section Values

variable {pool : Pool} {decoder : Decoder} {type : ValueType} {wire : Wire.Value}

theorem Shown.settles (simple : IsSimple pool type) {value : Json.Value}
    (shown : Shown pool type value wire) : Settles pool decoder type wire where
  layout := shown.layout
  readable := by
    intro message field skipped
    rw [shown.read] at skipped
    cases skipped
  written := by
    intro _ other reads
    have read := reads "" ""
    rw [shown.read] at read
    have same := Except.ok.inj (Option.some.inj read)
    exact same ▸ shown.written simple

theorem settles_of_encodeMembers (nested : Reproduces pool decoder) {id : MessageId}
    {message : Message} (found : pool.message? id = some message)
    (notEntry : message.isMapEntry = false) (regular : pool.Regular message)
    {members : Json.Members} (apart : MapsApart pool message (.object members)) {payload : Bytes}
    (encoded : encodeMembers pool message members = .ok payload) :
    Settles pool decoder (.message id) (.delimited payload) where
  layout := rfl
  readable := fun _ _ => Option.some_ne_none _
  written := by
    intro short document reads
    have decoded := (reads_message found).mp reads
    rcases nested id message found notEntry regular members payload document apart encoded short
      decoded with ⟨shown, same, again⟩
    subst same
    refine ⟨rfl, rfl, fun field => ?_⟩
    rw [convert_object found, again]
    rfl

/-- Whatever was converted settles. -/
theorem settles_of_convert (nested : Reproduces pool decoder) (regular : IsRegular pool type)
    {document : Json.Value} (apart : ∀ id message, type = .message id →
      pool.message? id = some message → MapsApart pool message document)
    {field : String} (converted : convert pool field type document = .ok wire) :
    Settles pool decoder type wire := by
  cases regular with
  | simple simple =>
    rw [convert_of_isSimple simple] at converted
    rcases exists_of_convertSimple simple converted with ⟨value, shown⟩
    exact shown.settles simple
  | message found notEntry regular =>
    cases document with
    | object members =>
      rw [convert_object found] at converted
      rcases Outcome.map_eq_ok_iff.mp converted with ⟨payload, encoded, same⟩
      subst same
      exact settles_of_encodeMembers nested found notEntry regular (apart _ _ rfl found) encoded
    | _ => cases converted

/-- What `null` stands for in a map settles. -/
theorem settles_zero (nested : Reproduces pool decoder) (regular : IsRegular pool type) :
    Settles pool decoder type (zero pool type) := by
  cases regular with
  | simple simple => exact (shown_zero simple).settles simple
  | message found notEntry regular =>
    exact settles_of_encodeMembers nested found notEntry regular (mapsApart_nil pool _)
      (encodeMembers_nil pool _)

end Values

/-! ## Fields -/

/-- A value of a document for a field is written as some values on the wire, and whatever the
field shows when these are read is written as they are. -/
structure FieldSettles (pool : Pool) (decoder entryDecoder : Decoder) (message : Message)
    (field : Field) (given : Json.Value) (wires : List Wire.Value) : Prop
    extends FieldLegible pool decoder entryDecoder message field given wires where
  shown : (∀ wire ∈ wires, wire.Fits) →
    Contribute pool decoder entryDecoder message field wires → ∀ shown,
      fieldValue pool .plain decoder field
          (contributionsOf pool decoder entryDecoder message field wires) = .ok shown →
        shown = none ∧ wires = [] ∨ ∃ value, shown = some value ∧ wires ≠ [] ∧
          value.isNull = false ∧ valueRecords pool field value = .ok (writtenValues field wires)

section Fields

variable {pool : Pool} {decoder entryDecoder : Decoder} {message : Message} {field : Field}

theorem exists_fieldSettles_simple {type : ValueType} {explicit : Bool}
    (shape : field.shape = .singular type explicit) (simple : IsSimple pool type)
    (zeroFirst : field.hasPresence = false → ∀ id enumeration, type = .enumeration id →
      pool.enumeration? id = some enumeration → enumeration.defaultNumber = 0)
    {given : Json.Value} {records : Bytes}
    (written : valueRecords pool field given = .ok records) :
    ∃ wires, FieldSettles pool decoder entryDecoder message field given wires := by
  rcases exists_of_valueRecords_single shape written with ⟨wire, converted, isWritten⟩
  rw [convert_of_isSimple simple] at converted
  rcases exists_of_convertSimple simple converted with ⟨value, shown⟩
  have again := valueRecords_single shape (shown.written simple)
  rcases fieldValue_shown shape simple shown with ⟨contribute, isValue⟩
  by_cases omitted : (!field.hasPresence && isZero wire) = true
  · rw [if_pos omitted] at isWritten
    refine ⟨[], ⟨isWritten, List.forall_mem_nil _⟩, ?_⟩
    intro _ _ result isResult
    have nothing := (fieldValue_nil pool decoder field).symm.trans isResult
    exact Or.inl ⟨(Except.ok.inj nothing).symm, rfl⟩
  · rw [if_neg omitted] at isWritten again
    refine ⟨[wire], ⟨isWritten, contribute.ne_none⟩, ?_⟩
    intro _ _ result isResult
    -- What is written without presence is not zero, so it will not be taken for the default.
    have kept : ¬ (!field.hasPresence && isDefault pool type value) = true := by
      cases presence : field.hasPresence with
      | true => exact Bool.false_ne_true
      | false =>
        rw [shown.default (zeroFirst presence)]
        rwa [presence] at omitted
    rw [isValue, if_neg kept] at isResult
    exact Or.inr ⟨value, (Except.ok.inj isResult).symm, List.cons_ne_nil _ _, shown.notNull,
      again⟩

theorem exists_fieldSettles_message (nested : Reproduces pool decoder) {id : MessageId}
    {explicit : Bool} (shape : field.shape = .singular (.message id) explicit) {next : Message}
    (found : pool.message? id = some next) (regular : IsRegular pool (.message id))
    {given : Json.Value} (apart : MapsApart pool next given) {records : Bytes}
    (written : valueRecords pool field given = .ok records) :
    ∃ wires, FieldSettles pool decoder entryDecoder message field given wires := by
  have presence := hasPresence_of_message shape
  rcases exists_of_valueRecords_single shape written with ⟨wire, converted, isWritten⟩
  have nextApart : ∀ other message, ValueType.message id = .message other →
      pool.message? other = some message → MapsApart pool message given := by
    intro other message same there
    cases same
    exact Option.some.inj (found.symm.trans there) ▸ apart
  have settles : Settles pool decoder (.message id) wire :=
    settles_of_convert nested regular nextApart converted
  have layout := settles.layout
  rw [presence] at isWritten
  cases wire with
  | delimited content =>
    rcases fieldValue_content shape found content with ⟨contribute, isValue⟩
    refine ⟨[.delimited content], ⟨isWritten, contribute.ne_none⟩, ?_⟩
    intro fits _ result isResult
    rw [isValue] at isResult
    cases decoded : decoder next content with
    | error refusal =>
      rw [decoded] at isResult
      cases isResult
    | ok document =>
      rw [decoded] at isResult
      cases isResult
      have again := settles.written (fits _ List.mem_cons_self) document
        ((reads_message found).mpr decoded)
      refine Or.inr ⟨document, rfl, List.cons_ne_nil _ _, again.notNull, ?_⟩
      rw [valueRecords_single shape again, presence]
      rfl
  | varint word => cases layout
  | fixed64 word => cases layout
  | fixed32 word => cases layout

/-- The values of the items of an array settle. -/
theorem settles_of_convertItems (nested : Reproduces pool decoder) {type : ValueType}
    (regular : IsRegular pool type) {items : List Json.Value}
    (apart : ∀ item ∈ items, ∀ id message, type = .message id →
      pool.message? id = some message → MapsApart pool message item)
    {field : String} {wires : List Wire.Value}
    (converted : convertItems pool field type items = .ok wires) :
    ∀ wire ∈ wires, Settles pool decoder type wire := by
  intro wire member
  rcases exists_source (forall₂_of_convertItems converted) wire member with
    ⟨item, there, itemConverted⟩
  exact settles_of_convert nested regular (apart item there) itemConverted

/-- Values that settle are read one by one if their records are. -/
theorem exists_reads {type : ValueType} {packed : Bool}
    (shape : field.shape = .repeated type packed)
    (packable : packed = true → type.isPackable = true) {wires : List Wire.Value}
    (settle : ∀ wire ∈ wires, Settles pool decoder type wire)
    (contribute : Contribute pool decoder entryDecoder message field (blocks packed wires)) :
    ∀ wire ∈ wires, ∃ value, Reads pool decoder type wire value := by
  intro wire member
  by_cases isPacked : packed = true
  · have readable := (settle wire member).readable "" ""
    rw [readValue?_of_isPackable (packable isPacked)] at readable
    cases rendered : renderPackable? pool type wire with
    | none =>
      rw [rendered] at readable
      exact absurd rfl readable
    | some value =>
      refine ⟨value, fun name fieldName => ?_⟩
      rw [readValue?_of_isPackable (packable isPacked), rendered]
      rfl
  · rw [blocks, if_neg fun both => isPacked both.1] at contribute
    rcases contribute wire member with ⟨contribution, given⟩
    rw [contribution?_element shape (settle wire member).layout] at given
    rcases Option.map_eq_some_iff.mp given with ⟨run, isRun, mapped⟩
    rcases Outcome.map_eq_ok_iff.mp mapped with ⟨value, ok, _⟩
    exact ⟨value, reads_of_readValue? (ok ▸ isRun)⟩

theorem exists_fieldSettles_repeated (nested : Reproduces pool decoder) {type : ValueType}
    {packed : Bool} (shape : field.shape = .repeated type packed)
    (packable : packed = true → type.isPackable = true) (regular : IsRegular pool type)
    {given : Json.Value} (apart : ∀ items, given = .array items → ∀ item ∈ items,
      ∀ id message, type = .message id → pool.message? id = some message →
        MapsApart pool message item)
    {records : Bytes} (written : valueRecords pool field given = .ok records) :
    ∃ wires, FieldSettles pool decoder entryDecoder message field given wires := by
  rw [valueRecords, fieldRecords, shape] at written
  rcases Outcome.map_eq_ok_iff.mp written with ⟨wires, converted, _⟩
  cases given with
  | array items =>
    have settle := settles_of_convertItems nested regular (apart items rfl) converted
    have layout : ∀ wire ∈ wires, wire.layout = type.layout := fun wire member =>
      (settle wire member).layout
    refine ⟨blocks packed wires, ?_, ?_⟩
    · exact fieldLegible_elements shape packable converted fun wire member =>
        (settle wire member).toLegible
    · intro fits contribute result isResult
      have elementsFit := fits_of_fits_blocks packable layout fits
      rcases exists_forall₂ (exists_reads shape packable settle contribute) with ⟨values, reads⟩
      have again : List.Forall₂ (Written pool type) values wires := .flip
        (forall₂_imp_of_mem (fun wire member value _ =>
          (settle wire member).written (elementsFit wire member) value) reads)
      have elements : elementsOf (contributionsOf pool decoder entryDecoder message field
          (blocks packed wires)) = values := (elementsOf_blocks shape packable layout reads).2
      rw [fieldValue_elements shape elements] at isResult
      by_cases none : values = []
      · rw [if_pos none] at isResult
        rw [none, List.forall₂_nil_left_iff] at again
        exact Or.inl ⟨(Except.ok.inj isResult).symm, blocks_eq_nil_iff.mpr again⟩
      · rw [if_neg none] at isResult
        refine Or.inr ⟨.array values, (Except.ok.inj isResult).symm, fun empty => ?_, rfl,
          valueRecords_repeated shape again⟩
        rw [blocks_eq_nil_iff.mp empty, List.forall₂_nil_right_iff] at again
        exact none again
  | _ => cases converted

end Fields

/-! ## Maps -/

section Maps

variable {pool : Pool} {decoder entryDecoder : Decoder} {message entry : Message} {field : Field}
  {id : MessageId} {key : Scalar} {type : ValueType}

/-- The content of an entry message whose key is that of a text and whose value settles. -/
def ContentSettles (pool : Pool) (decoder : Decoder) (key : Scalar) (type : ValueType)
    (text : String) (content : Bytes) : Prop :=
  ∃ first second, convertKey pool (.entryKey key) text = .ok first ∧
    Settles pool decoder type second ∧
    content = entryContent (.entryKey key) (.entryValue type) first second

/-- A key that is shown for a text: the text itself, or the numeral of the integer that it
denotes. -/
def ShownKey (key : Scalar) (text shown : String) : Prop :=
  isIntegerType key = false ∧ shown = text ∨ isIntegerType key = true ∧
    ∃ n, shown = String.ofList (Numeral.ofInt n) ∧ Denotes text n

theorem contentSettles_of_entryConverted (nested : Reproduces pool decoder)
    (regular : IsRegular pool type) {entry : String × Json.Value}
    (apart : ∀ id message, type = .message id → pool.message? id = some message →
      MapsApart pool message entry.2)
    {content : Bytes} (converted : EntryConverted pool key type entry content) :
    ContentSettles pool decoder key type entry.1 content := by
  rcases converted with ⟨first, second, keyConverted, valueConverted, same⟩
  refine ⟨first, second, keyConverted, ?_, same⟩
  by_cases isNull : entry.2.isNull = true
  · rw [if_pos isNull] at valueConverted
    cases valueConverted
    exact settles_zero nested regular
  · rw [if_neg isNull] at valueConverted
    exact settles_of_convert nested regular apart valueConverted

/-- An entry that is decoded from such a content is written as it again. -/
theorem entryWritten_of_decodeEntry (fields : entry.fields = [.entryKey key, .entryValue type])
    (legal : key.isMapKey = true) {text : String} {content : Bytes}
    (settles : ContentSettles pool decoder key type text content)
    (short : content.length < 2 ^ 32) {result : String × Json.Value}
    (decoded : decodeEntry pool decoder entry content = .ok result) :
    EntryWritten pool key type result content ∧ ShownKey key text result.1 := by
  rcases settles with ⟨first, second, keyConverted, valueSettles, same⟩
  subst same
  rcases fits_of_entryContent short with ⟨firstFits, secondFits⟩
  rcases exists_of_convertKey legal keyConverted with ⟨keyShown, shown, isText⟩
  cases read : readValue? pool decoder entry.fullName "value" type second with
  | none => exact absurd read (valueSettles.readable _ _)
  | some run =>
    rw [decodeEntry_entryContent fields firstFits secondFits shown read] at decoded
    rcases Outcome.map_eq_ok_iff.mp decoded with ⟨value, ok, same⟩
    subst same
    have reads := reads_of_readValue? (ok ▸ read)
    exact ⟨⟨first, second, shown.key legal _, valueSettles.written secondFits value reads, rfl⟩,
      isText⟩

/-- Entries that are decoded from such contents are written as these again, under the keys that
are shown for the texts. -/
theorem decodedEntries (found : pool.message? id = some entry)
    (fields : entry.fields = [.entryKey key, .entryValue type]) (legal : key.isMapKey = true)
    {entries : Json.Members} {contents : List Bytes}
    (settle : List.Forall₂ (fun member content =>
      ContentSettles pool decoder key type member.1 content) entries contents)
    (short : ∀ content ∈ contents, content.length < 2 ^ 32) {members : Json.Members}
    (each : List.Forall₂ (fun content member => decodeEntryAt pool decoder id content = .ok member)
      contents members) :
    List.Forall₂ (EntryWritten pool key type) members contents ∧
      List.Forall₂ (fun entry member => ShownKey key entry.1 member.1) entries members := by
  induction settle generalizing members with
  | nil =>
    cases each
    exact ⟨.nil, .nil⟩
  | cons first _ inductionHypothesis =>
    cases each with
    | cons decoded others =>
      have restShort := fun content there => short content (List.mem_cons_of_mem _ there)
      rcases inductionHypothesis restShort others with ⟨restWritten, restKeys⟩
      simp only [decodeEntryAt, found] at decoded
      rcases entryWritten_of_decodeEntry fields legal first (short _ List.mem_cons_self) decoded with
        ⟨written, shownKey⟩
      exact ⟨.cons written restWritten, .cons shownKey restKeys⟩

/-- Keys that are apart are shown differently. -/
theorem nodup_shownKeys {entries members : Json.Members} (apart : KeysApart key entries)
    (each : List.Forall₂ (fun entry member => ShownKey key entry.1 member.1) entries members) :
    (members.map (·.1)).Nodup := by
  induction each with
  | nil => exact List.nodup_nil
  | @cons entry _ restEntries _ first others inductionHypothesis =>
    rcases apart with ⟨distinct, integers⟩
    rw [List.map_cons, List.nodup_cons] at distinct
    have restApart : KeysApart key restEntries :=
      ⟨distinct.2, fun integer => (List.pairwise_cons.mp (integers integer)).2⟩
    rw [List.map_cons, List.nodup_cons]
    refine ⟨fun again => ?_, inductionHypothesis restApart⟩
    rcases List.mem_map.mp again with ⟨other, there, same⟩
    have source : ∃ origin ∈ restEntries, ShownKey key origin.1 other.1 := by
      rcases List.mem_iff_get.mp there with ⟨position, isOther⟩
      have within : position.val < restEntries.length := by
        rw [others.length_eq]
        exact position.isLt
      refine ⟨restEntries.get ⟨position, within⟩, List.get_mem _ _, ?_⟩
      rw [← isOther]
      exact others.get within position.isLt
    rcases source with ⟨origin, isOrigin, shown⟩
    have different : entry.1 ≠ origin.1 := fun same =>
      distinct.1 (same ▸ List.mem_map_of_mem isOrigin)
    rcases first with ⟨notInteger, firstSame⟩ | ⟨integer, n, firstSame, denotesFirst⟩
    · rcases shown with ⟨_, otherSame⟩ | ⟨integer, _⟩
      · exact different (firstSame.symm.trans (same.symm.trans otherSame))
      · rw [notInteger] at integer
        cases integer
    · rcases shown with ⟨notInteger, _⟩ | ⟨_, m, otherSame, denotesOther⟩
      · rw [notInteger] at integer
        cases integer
      · have numerals : String.ofList (Numeral.ofInt m) = String.ofList (Numeral.ofInt n) :=
          otherSame.symm.trans (same.trans firstSame)
        have equal : m = n := ofInt_injective (String.ofList_injective numerals)
        exact (List.pairwise_cons.mp (integers integer)).1 origin isOrigin n denotesFirst
          (equal ▸ denotesOther)

theorem exists_fieldSettles_map (nested : Reproduces pool entryDecoder)
    (shape : field.shape = .map id) (found : pool.message? id = some entry)
    (fields : entry.fields = [.entryKey key, .entryValue type]) (legal : key.isMapKey = true)
    (regular : IsRegular pool type) {given : Json.Value}
    (keysApart : ∀ entries, given = .object entries → KeysApart key entries)
    (apart : ∀ entries, given = .object entries → ∀ member ∈ entries, ∀ id message,
      type = .message id → pool.message? id = some message → MapsApart pool message member.2)
    {records : Bytes} (written : valueRecords pool field given = .ok records) :
    ∃ wires, FieldSettles pool decoder entryDecoder message field given wires := by
  rw [valueRecords, fieldRecords, shape] at written
  rcases Outcome.map_eq_ok_iff.mp written with ⟨contents, converted, _⟩
  cases given with
  | object entries =>
    have convertedEntries := converted
    simp only [convertMap, found, fields] at convertedEntries
    have settle := forall₂_imp_of_mem (fun entry there _ _ =>
      contentSettles_of_entryConverted nested regular (apart entries rfl entry there))
      (forall₂_of_convertEntries convertedEntries)
    refine ⟨contents.map .delimited, fieldLegible_entries shape converted, ?_⟩
    · intro fits contribute result isResult
      have short : ∀ content ∈ contents, content.length < 2 ^ 32 := fun content there =>
        fits _ (List.mem_map_of_mem there)
      have decoded : ∀ content ∈ contents, ∃ member,
          decodeEntryAt pool entryDecoder id content = .ok member := by
        intro content there
        rcases contribute _ (List.mem_map_of_mem there) with ⟨contribution, isGiven⟩
        rcases (contribution?_map_iff shape).mp isGiven with ⟨inner, member, same, run, _⟩
        cases same
        exact ⟨member, run⟩
      rcases exists_forall₂ decoded with ⟨members, each⟩
      rcases decodedEntries found fields legal settle short each with ⟨again, keys⟩
      have distinct := nodup_shownKeys (keysApart entries rfl) keys
      have same : entriesOf (contributionsOf pool decoder entryDecoder message field
          (contents.map .delimited)) = members := (entriesOf_contents shape distinct each).2
      rw [fieldValue_entries shape same] at isResult
      by_cases none : members = []
      · rw [if_pos none] at isResult
        rw [none, List.forall₂_nil_left_iff] at again
        refine Or.inl ⟨(Except.ok.inj isResult).symm, ?_⟩
        rw [again, List.map_nil]
      · rw [if_neg none] at isResult
        refine Or.inr ⟨.object members, (Except.ok.inj isResult).symm, fun empty => ?_, rfl,
          valueRecords_map shape found fields again⟩
        rw [List.map_eq_nil_iff.mp empty, List.forall₂_nil_right_iff] at again
        exact none again
  | _ => cases converted

end Maps

/-! ## Messages -/

section Messages

variable {pool : Pool} {decoder entryDecoder : Decoder}

/-- A value that a document gives a regular field is written as values that settle. -/
theorem exists_fieldSettles {message : Message} {field : Field} (regular : RegularField pool field)
    (nested : Reproduces pool decoder) (nestedEntries : Reproduces pool entryDecoder)
    {members : Json.Members} (apart : MapsApart pool message (.object members)) {name : String}
    {given : Json.Value} (isMember : (name, given) ∈ members)
    (named : message.fieldByName? name = some field) {records : Bytes}
    (written : valueRecords pool field given = .ok records) :
    ∃ wires, FieldSettles pool decoder entryDecoder message field given wires := by
  cases regular with
  | simple shape simple zeroFirst =>
    exact exists_fieldSettles_simple shape simple zeroFirst written
  | message shape found notEntry regular =>
    have inner : MapsApart pool _ given := fun key entries inside =>
      apart key entries (.single isMember named shape found inside)
    exact exists_fieldSettles_message nested shape found (.message found notEntry regular) inner
      written
  | repeated shape packable regular =>
    refine exists_fieldSettles_repeated nested shape packable regular ?_ written
    intro items isArray item isItem id next isMessage found key entries inside
    subst isArray
    exact apart key entries (.item isMember named (isMessage ▸ shape) isItem found inside)
  | map shape found fields legal regular =>
    refine exists_fieldSettles_map nestedEntries shape found fields legal regular ?_ ?_ written
    · intro entries isObject
      subst isObject
      exact apart _ entries (.here isMember named shape found fields)
    · intro others isObject pair isPair nextId next isMessage nextFound mapKey entries inside
      subst isObject
      exact apart mapKey entries
        (.value isMember named shape found (isMessage ▸ fields) isPair nextFound inside)

theorem Reproduces.decodeLevel (wellFormed : pool.WellFormed) (nested : Reproduces pool decoder)
    (nestedEntries : Reproduces pool entryDecoder) :
    Reproduces pool (decodeLevel pool .plain decoder entryDecoder) := by
  intro id message found notEntry regular members payload document apart encoded short decoded
  have there : message ∈ pool.messages := List.mem_of_getElem? found
  have indexed := (wellFormed.messages message there).indexed
  rcases exists_of_encodeMembers indexed encoded with ⟨given, facts, exclusive, _, whole⟩
  have each (field : Field) (value : Json.Value) (isGiven : given field = some value) :
      ∃ wires, FieldSettles pool decoder entryDecoder message field value wires := by
    rcases facts field value isGiven with ⟨member, _, ⟨name, isMember, named⟩, records, written⟩
    exact exists_fieldSettles (regularField wellFormed there notEntry regular member) nested
      nestedEntries apart isMember named written
  rcases exists_wires_of_held each with ⟨wires, absent, settles⟩
  have isPayload := whole wires (fun field value isGiven => (settles field value isGiven).records)
    absent
  subst isPayload
  have isGiven (field : Field) (some : wires field ≠ []) : ∃ value, given field = .some value := by
    cases held : given field with
    | none => exact absurd (absent field held) some
    | some value => exact ⟨value, rfl⟩
  have wiresExclusive : Exclusive message fun field => wires field ≠ [] :=
    exclusive.imp fun field _ some => Option.isSome_iff_exists.mpr (isGiven field some)
  have never : ∀ field ∈ message.fields, ∀ wire ∈ wires field,
      contribution? pool decoder entryDecoder message field wire ≠ none := by
    intro field _ wire isWire
    rcases isGiven field (List.ne_nil_of_mem isWire) with ⟨value, held⟩
    exact (settles field value held).readable wire isWire
  have fits := fits_of_length_writtenFields short
  rcases exists_of_decodeLevel_writtenFields indexed fits decoded never wiresExclusive with
    ⟨contribute, shown, values, same⟩
  -- A field that is written is shown as a value that is written in the same way again.
  have outcome : ∀ field ∈ message.fields, shown field = none ∧ wires field = [] ∨
      ∃ value, shown field = some value ∧ wires field ≠ [] ∧ value.isNull = false ∧
        valueRecords pool field value = .ok (writtenValues field (wires field)) := by
    intro field member
    cases held : given field with
    | none =>
      have shownNone := values field member
      rw [absent field held] at shownNone
      have nothing := (fieldValue_nil pool decoder field).symm.trans shownNone
      exact Or.inl ⟨(Except.ok.inj nothing).symm, absent field held⟩
    | some value =>
      exact (settles field value held).shown (fits field member) (contribute field member) _
        (values field member)
  refine ⟨_, same, encodeMembers_shownMembers indexed ?_ ?_ ?_⟩
  · intro field member value isShown
    rcases outcome field member with ⟨notShown, _⟩ | ⟨other, isOther, _, notNull, records⟩
    · rw [notShown] at isShown
      cases isShown
    · rw [isOther] at isShown
      cases isShown
      exact ⟨notNull, records⟩
  · intro field member notShown
    rcases outcome field member with ⟨_, none⟩ | ⟨other, isOther, _⟩
    · exact none
    · rw [isOther] at notShown
      cases notShown
  · apply wiresExclusive.imp
    intro field member isSome
    rcases outcome field member with ⟨notShown, _⟩ | ⟨_, _, written, _⟩
    · rw [notShown] at isSome
      cases isSome
    · exact written

/-- By induction on the levels.  Messages lose one of them, entries two. -/
theorem reproduces_decodeWithin (wellFormed : pool.WellFormed) (levels : Nat) :
    Reproduces pool (decodeWithin pool .plain levels) := by
  have refused : Reproduces pool refuse :=
    fun _ _ _ _ _ _ _ _ _ _ _ impossible => nomatch impossible
  induction levels using decodeWithin.induct with
  | case1 => exact refused
  | case2 => exact Reproduces.decodeLevel wellFormed refused refused
  | case3 levels below entriesBelow => exact Reproduces.decodeLevel wellFormed below entriesBelow

/-- A payload is reproduced if the maps in its document are apart. -/
theorem encode_of_mapsApart (wellFormed : pool.WellFormed) {name : String} {message : Message}
    (found : pool.findMessage? name = some message) (regular : pool.Regular message)
    {document : Json.Value} (apart : MapsApart pool message document) {payload : Bytes}
    (encoded : encode pool name document = .ok payload) (short : payload.length < 2 ^ 32)
    {shown : Json.Value} (decoded : decode pool .plain name payload = .ok shown) :
    encode pool name shown = .ok payload := by
  rcases wellFormed.exists_of_findMessage? found with ⟨id, there, notEntry⟩
  cases document with
  | object members =>
    rw [encode_object found] at encoded
    simp only [decode, found] at decoded
    rcases reproduces_decodeWithin wellFormed nestingLimit id message there notEntry regular members
      payload shown apart encoded short decoded with ⟨again, same, reproduced⟩
    subst same
    exact (encode_object found again).trans reproduced
  | _ =>
    rw [encode, found] at encoded
    cases encoded

end Messages

end Payload

open Json Schema Payload

theorem eq_of_denotes {text : String} {n m : Int}
    (signed : IntegerRange.signed64.readNumeral (Text.trim text.toList) = .ok m)
    (unsigned : IntegerRange.unsigned64.readNumeral (Text.trim text.toList) = .ok m)
    (denotes : Denotes text n) : n = m := by
  rcases denotes with one | other
  · exact Except.ok.inj (one.symm.trans signed)
  · exact Except.ok.inj (other.symm.trans unsigned)

/-- A document with numerals for integers and with `null` for a message. -/
def nodeDocument : Json.Value :=
  .object [("name", .string "c"),
    ("links", .object [("01", .null), (" 2", .object [("marks", .array [.string "7"])])])]

theorem keysDistinct_nodeDocument : nodeDocument.KeysDistinct := by
  simp [Json.Value.KeysDistinct, nodeDocument, objectsOf, objectsOfMembers, objectsOfItems]

theorem integersApart_nodeDocument (pool : Pool) (message : Message) :
    IntegersApart pool message nodeDocument := by
  intro key entries inside _
  rcases inside.mem_objects with ⟨members, same, member⟩
  cases same
  have objects : entries = [("01", .null), (" 2", .object [("marks", .array [.string "7"])])] ∨
      entries = [("marks", .array [.string "7"])] := by
    simpa [objectsOfMembers, objectsOf, objectsOfItems] using member
  rcases objects with links | marks
  · subst links
    apply List.pairwise_pair.mpr
    intro n one two
    have isOne : n = 1 := eq_of_denotes (by decide +kernel) (by decide +kernel) one
    have isTwo : n = 2 := eq_of_denotes (by decide +kernel) (by decide +kernel) two
    omega
  · subst marks
    exact List.pairwise_singleton _ _

theorem read?_text_nodeDocument : Json.Value.read? nodeDocument.text = some nodeDocument := by
  have marks : (Json.Value.object [("marks", .array [.string "7"])]).Exact :=
    .object (List.nodup_singleton _)
      (List.forall_mem_singleton.mpr (.array (List.forall_mem_singleton.mpr (.string "7"))))
  have links : (Json.Value.object [("01", .null),
      (" 2", .object [("marks", .array [.string "7"])])]).Exact :=
    .object (by decide) (List.forall_mem_cons.mpr ⟨.null, List.forall_mem_singleton.mpr marks⟩)
  have whole : nodeDocument.Exact :=
    .object (by decide)
      (List.forall_mem_cons.mpr ⟨.string "c", List.forall_mem_singleton.mpr links⟩)
  rw [Json.Value.read?_text whole, if_pos (by decide)]

end SchemaRecords
