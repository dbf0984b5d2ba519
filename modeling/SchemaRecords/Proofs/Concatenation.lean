import SchemaRecords.Proofs.CanonicalPayloads
import SchemaRecords.Proofs.Payload.Merging
import SchemaRecords.Proofs.Schema.GivenCharacters

/-!
# Concatenation is merging

Two payloads of one message, one behind the other, are a payload of this message.  If both are
payloads of documents, it decodes to the merge of what they decode to.

The decoder itself never merges documents.  It keeps the last of several single values, joins
the contents of a message before it decodes them, and lets an occurrence displace what came
before it in its oneof.  For the document this comes to a merge because an encoder leaves no
trace of a field that it does not show: what counts as absent in the later document is not
written in its payload, and so it neither replaces nor displaces anything.

Each of the two payloads is one of less than 2^32 bytes, so that the reader takes every content in
it as a whole.  Of both together nothing of the kind is asked.
-/

namespace SchemaRecords
namespace Payload

open SchemaRecords.Json SchemaRecords.Schema

/-- A decoder that decodes two payloads of documents behind one another to a merge. -/
def JoinsPayloads (pool : Pool) (decoder : Decoder) : Prop :=
  ∀ id message, pool.message? id = some message → message.isMapEntry = false →
    pool.Regular message → ∀ first second firstPayload secondPayload earlier later,
      encodeMembers pool message first = .ok firstPayload →
      encodeMembers pool message second = .ok secondPayload →
      firstPayload.length < 2 ^ 32 → secondPayload.length < 2 ^ 32 →
      decoder message firstPayload = .ok earlier → decoder message secondPayload = .ok later →
        decoder message (firstPayload ++ secondPayload) = .ok (merge pool message earlier later)

/-! ## What is written for a field -/

section Fields

variable {pool : Pool} {decoder entryDecoder : Decoder} {message : Message} {field : Field}

/-- Whatever was converted is legible. -/
theorem legible_of_convert {type : ValueType} (regular : IsRegular pool type)
    {document : Json.Value} {wire : Wire.Value} {name : String}
    (converted : convert pool name type document = .ok wire) :
    Legible pool decoder type wire := by
  cases regular with
  | simple simple =>
    rw [convert_of_isSimple simple] at converted
    rcases exists_of_convertSimple simple converted with ⟨value, shown⟩
    exact (shown.settles simple).toLegible
  | message found _ _ =>
    cases document with
    | object members =>
      rw [convert_object found] at converted
      rcases Outcome.map_eq_ok_iff.mp converted with ⟨payload, _, same⟩
      subst same
      exact ⟨rfl, fun _ _ => Option.some_ne_none _⟩
    | _ => cases converted

/-- A value of a document is written for a field as some values on the wire.  Besides being
legible, a simple value is only left out if it would not be shown, and a message is written as
one content. -/
inductive WrittenAs (pool : Pool) (decoder entryDecoder : Decoder) (message : Message)
    (field : Field) : Json.Value → List Wire.Value → Prop
  | simple {type : ValueType} {explicit : Bool} {given : Json.Value} {wires : List Wire.Value}
      (shape : field.shape = .singular type explicit) (simple : IsSimple pool type)
      (settles : FieldSettles pool decoder entryDecoder message field given wires) :
      WrittenAs pool decoder entryDecoder message field given wires
  | message {id : MessageId} {explicit : Bool} {next : Message} {members : Members}
      {content : Bytes} (shape : field.shape = .singular (.message id) explicit)
      (found : pool.message? id = some next) (notEntry : next.isMapEntry = false)
      (regular : pool.Regular next) (encoded : encodeMembers pool next members = .ok content) :
      WrittenAs pool decoder entryDecoder message field (.object members) [.delimited content]
  | repeated {type : ValueType} {packed : Bool} {given : Json.Value} {wires : List Wire.Value}
      (shape : field.shape = .repeated type packed)
      (legible : FieldLegible pool decoder entryDecoder message field given wires) :
      WrittenAs pool decoder entryDecoder message field given wires
  | map {id : MessageId} {given : Json.Value} {wires : List Wire.Value}
      (shape : field.shape = .map id)
      (legible : FieldLegible pool decoder entryDecoder message field given wires) :
      WrittenAs pool decoder entryDecoder message field given wires

theorem WrittenAs.legible {given : Json.Value} {wires : List Wire.Value}
    (written : WrittenAs pool decoder entryDecoder message field given wires) :
    FieldLegible pool decoder entryDecoder message field given wires := by
  cases written with
  | simple _ _ settles => exact settles.toFieldLegible
  | @message id explicit next members content shape found _ _ encoded =>
    have value : Written pool (.message id) (.object members) (.delimited content) := by
      refine ⟨rfl, rfl, fun name => ?_⟩
      rw [convert_object found, encoded]
      rfl
    have records := valueRecords_single shape value
    rw [hasPresence_of_message shape] at records
    exact ⟨records, (fieldValue_content shape found content).1.ne_none⟩
  | repeated _ legible => exact legible
  | map _ legible => exact legible

theorem exists_writtenAs (regular : RegularField pool field) {given : Json.Value}
    {records : Bytes} (written : valueRecords pool field given = .ok records) :
    ∃ wires, WrittenAs pool decoder entryDecoder message field given wires := by
  cases regular with
  | simple shape simple zeroFirst =>
    rcases exists_fieldSettles_simple shape simple zeroFirst written with ⟨wires, settles⟩
    exact ⟨wires, .simple shape simple settles⟩
  | @message id explicit next shape found notEntry regular =>
    rcases exists_of_valueRecords_single shape written with ⟨wire, converted, _⟩
    cases given with
    | object members =>
      rw [convert_object found] at converted
      rcases Outcome.map_eq_ok_iff.mp converted with ⟨content, encoded, _⟩
      exact ⟨_, .message shape found notEntry regular encoded⟩
    | _ => cases converted
  | @repeated type packed shape packable regular =>
    rw [valueRecords, fieldRecords, shape] at written
    rcases Outcome.map_eq_ok_iff.mp written with ⟨wires, converted, _⟩
    cases given with
    | array items =>
      have legible : ∀ wire ∈ wires, Legible pool decoder type wire := by
        intro wire member
        rcases exists_source (forall₂_of_convertItems converted) wire member with
          ⟨_, _, itemConverted⟩
        exact legible_of_convert regular itemConverted
      exact ⟨_, .repeated shape (fieldLegible_elements shape packable converted legible)⟩
    | _ => cases converted
  | map shape found fields legal regular =>
    rw [valueRecords, fieldRecords, shape] at written
    rcases Outcome.map_eq_ok_iff.mp written with ⟨contents, converted, _⟩
    exact ⟨_, .map shape (fieldLegible_entries shape converted)⟩

/-- What is written for a field by a document that may or may not set it. -/
def MayWrite (pool : Pool) (decoder entryDecoder : Decoder) (message : Message) (field : Field)
    (wires : List Wire.Value) : Prop :=
  wires = [] ∨ ∃ given, WrittenAs pool decoder entryDecoder message field given wires

/-- A single value is shown if it is written. -/
theorem isSome_iff_of_mayWrite {type : ValueType} {explicit : Bool}
    (shape : field.shape = .singular type explicit) {wires : List Wire.Value}
    (written : MayWrite pool decoder entryDecoder message field wires)
    (fits : ∀ wire ∈ wires, wire.Fits)
    (contribute : Contribute pool decoder entryDecoder message field wires)
    {shown : Option Json.Value}
    (isShown : fieldValue pool .plain decoder field
      (contributionsOf pool decoder entryDecoder message field wires) = .ok shown) :
    shown.isSome = true ↔ wires ≠ [] := by
  rcases written with none | ⟨given, written⟩
  · subst none
    cases (fieldValue_nil pool decoder field).symm.trans isShown
    exact ⟨fun impossible => (nomatch impossible), fun impossible => absurd rfl impossible⟩
  · cases written with
    | simple _ _ settles =>
      rcases settles.shown fits contribute shown isShown with ⟨absent, none⟩ |
        ⟨value, present, some, _⟩
      · subst absent none
        exact ⟨fun impossible => (nomatch impossible), fun impossible => absurd rfl impossible⟩
      · subst present
        exact ⟨fun _ => some, fun _ => rfl⟩
    | @message _ _ next _ content itsShape found =>
      rw [(fieldValue_content itsShape found content).2] at isShown
      rcases Outcome.map_eq_ok_iff.mp isShown with ⟨document, _, same⟩
      subst same
      exact ⟨fun _ => List.cons_ne_nil _ _, fun _ => rfl⟩
    | repeated other => cases shape.symm.trans other
    | map other => cases shape.symm.trans other

/-! ## One payload behind the other -/

/-- A simple value that is shown is shown whatever comes before it. -/
theorem fieldValue_append_simple {type : ValueType} {explicit : Bool}
    (shape : field.shape = .singular type explicit) (simple : IsSimple pool type)
    (first : List Contribution) {second : List Contribution} {value : Json.Value}
    (shown : fieldValue pool .plain decoder field second = .ok (some value)) :
    fieldValue pool .plain decoder field (first ++ second) = .ok (some value) := by
  rw [fieldValue_simple shape simple] at shown ⊢
  rw [valuesOf_append, List.getLast?_append]
  cases last : (valuesOf second).getLast? with
  | none =>
    rw [last] at shown
    cases shown
  | some other =>
    rw [last] at shown
    exact shown

/-- The contents of both payloads are decoded as one. -/
theorem fieldValue_append_contents (nested : JoinsPayloads pool decoder) {id : MessageId}
    {explicit : Bool} {next : Message} (shape : field.shape = .singular (.message id) explicit)
    (found : pool.message? id = some next) (notEntry : next.isMapEntry = false)
    (regular : pool.Regular next) {first second : Members} {firstContent secondContent : Bytes}
    (firstEncoded : encodeMembers pool next first = .ok firstContent)
    (secondEncoded : encodeMembers pool next second = .ok secondContent)
    (firstShort : firstContent.length < 2 ^ 32) (secondShort : secondContent.length < 2 ^ 32)
    {earlier later : Option Json.Value}
    (firstShown : fieldValue pool .plain decoder field [.content firstContent] = .ok earlier)
    (secondShown : fieldValue pool .plain decoder field [.content secondContent] = .ok later) :
    fieldValue pool .plain decoder field [.content firstContent, .content secondContent] =
      .ok (mergeShown pool field.shape earlier later) := by
  have given : contentsOf [.content firstContent, .content secondContent] ≠ [] :=
    List.cons_ne_nil firstContent [secondContent]
  have both : (contentsOf [.content firstContent, .content secondContent]).flatten =
      firstContent ++ secondContent :=
    congrArg (firstContent ++ ·) (List.append_nil secondContent)
  rw [fieldValue_oneContent shape found] at firstShown secondShown
  rcases Outcome.map_eq_ok_iff.mp firstShown with ⟨firstDocument, firstDecoded, firstSame⟩
  rcases Outcome.map_eq_ok_iff.mp secondShown with ⟨secondDocument, secondDecoded, secondSame⟩
  subst firstSame secondSame
  have joined := nested id next found notEntry regular first second _ _ _ _ firstEncoded
    secondEncoded firstShort secondShort (eq_ok_of_inField firstDecoded)
    (eq_ok_of_inField secondDecoded)
  rw [fieldValue_contents shape found given, both, joined, shape, mergeShown,
    mergeValue_message found]
  rfl

theorem fieldValue_append_elements {type : ValueType} {packed : Bool}
    (shape : field.shape = .repeated type packed) {first second : List Contribution}
    {earlier later : Option Json.Value}
    (firstShown : fieldValue pool .plain decoder field first = .ok earlier)
    (secondShown : fieldValue pool .plain decoder field second = .ok later) :
    fieldValue pool .plain decoder field (first ++ second) =
      .ok (mergeShown pool field.shape earlier later) := by
  rw [fieldValue_elements shape rfl] at firstShown secondShown
  rw [fieldValue_elements shape (elementsOf_append first second), shape]
  cases firstShown
  cases secondShown
  cases elementsOf second with
  | nil => rw [List.append_nil]; rfl
  | cons last others =>
    cases elementsOf first with
    | nil => rfl
    | cons head rest => rfl

theorem fieldValue_append_entries {id : MessageId} (shape : field.shape = .map id)
    {first second : List Contribution} {earlier later : Option Json.Value}
    (firstShown : fieldValue pool .plain decoder field first = .ok earlier)
    (secondShown : fieldValue pool .plain decoder field second = .ok later) :
    fieldValue pool .plain decoder field (first ++ second) =
      .ok (mergeShown pool field.shape earlier later) := by
  rw [fieldValue_entries shape rfl] at firstShown secondShown
  rw [fieldValue_entries shape (entriesOf_append first second), shape]
  have alone : Members.insertAll [] (entriesOf second) = entriesOf second :=
    (entriesOf_append [] second).symm
  cases firstShown
  cases secondShown
  by_cases secondNone : entriesOf second = []
  · rw [secondNone]
    rfl
  · rw [if_neg secondNone]
    by_cases firstNone : entriesOf first = []
    · rw [firstNone, alone, if_neg secondNone]
      rfl
    · rw [if_neg firstNone, if_neg (Members.insertAll_ne_nil firstNone _)]
      rfl

/-- The contributions of both payloads to a field show the merge of what they show alone. -/
theorem fieldValue_append (nested : JoinsPayloads pool decoder)
    {first second : List Wire.Value}
    (firstWritten : MayWrite pool decoder entryDecoder message field first)
    (secondWritten : MayWrite pool decoder entryDecoder message field second)
    (firstFits : ∀ wire ∈ first, wire.Fits) (secondFits : ∀ wire ∈ second, wire.Fits)
    (contribute : Contribute pool decoder entryDecoder message field second)
    {earlier later : Option Json.Value}
    (firstShown : fieldValue pool .plain decoder field
      (contributionsOf pool decoder entryDecoder message field first) = .ok earlier)
    (secondShown : fieldValue pool .plain decoder field
      (contributionsOf pool decoder entryDecoder message field second) = .ok later) :
    fieldValue pool .plain decoder field
        (contributionsOf pool decoder entryDecoder message field first ++
          contributionsOf pool decoder entryDecoder message field second) =
      .ok (mergeShown pool field.shape earlier later) := by
  rcases firstWritten with none | ⟨_, firstWritten⟩
  · subst none
    cases (fieldValue_nil pool decoder field).symm.trans firstShown
    rw [mergeShown_none]
    exact secondShown
  rcases secondWritten with none | ⟨_, secondWritten⟩
  · subst none
    cases (fieldValue_nil pool decoder field).symm.trans secondShown
    rw [show contributionsOf pool decoder entryDecoder message field [] = [] from rfl,
      List.append_nil]
    exact firstShown
  -- Both payloads have the field, and its one shape says how both of them wrote it.
  cases secondWritten with
  | simple shape simple settles =>
    rcases settles.shown secondFits contribute later secondShown with ⟨absent, none⟩ |
      ⟨value, present, _⟩
    · subst absent none
      rw [show contributionsOf pool decoder entryDecoder message field [] = [] from rfl,
        List.append_nil]
      exact firstShown
    · subst present
      rw [fieldValue_append_simple shape simple _ secondShown, shape]
      cases earlier with
      | none => rfl
      | some before => rw [mergeShown, mergeValue_simple simple.notMessage]
  | message shape found notEntry regular encoded =>
    cases firstWritten with
    | simple otherShape simple =>
      cases shape.symm.trans otherShape
      cases simple
    | message otherShape otherFound _ _ otherEncoded =>
      cases shape.symm.trans otherShape
      cases found.symm.trans otherFound
      rw [contributionsOf_eq (forall₂_content shape _)] at firstShown secondShown ⊢
      rw [contributionsOf_eq (forall₂_content shape _)]
      exact fieldValue_append_contents nested shape found notEntry regular otherEncoded encoded
        (firstFits _ List.mem_cons_self) (secondFits _ List.mem_cons_self) firstShown secondShown
    | repeated other => cases shape.symm.trans other
    | map other => cases shape.symm.trans other
  | repeated shape => exact fieldValue_append_elements shape firstShown secondShown
  | map shape => exact fieldValue_append_entries shape firstShown secondShown

end Fields

/-! ## Messages -/

section Messages

variable {pool : Pool} {decoder entryDecoder : Decoder} {message : Message}

/-- A payload that was written for some fields, and the values that it shows for them. -/
structure WrittenPayload (pool : Pool) (decoder entryDecoder : Decoder) (message : Message)
    (wires : Field → List Wire.Value) (shown : Field → Option Json.Value) : Prop where
  written : ∀ field ∈ message.fields,
    MayWrite pool decoder entryDecoder message field (wires field)
  exclusive : Exclusive message fun field => wires field ≠ []
  fits : ∀ field ∈ message.fields, ∀ wire ∈ wires field, wire.Fits
  contribute : ∀ field ∈ message.fields,
    Contribute pool decoder entryDecoder message field (wires field)
  values : ∀ field ∈ message.fields, fieldValue pool .plain decoder field
    (contributionsOf pool decoder entryDecoder message field (wires field)) = .ok (shown field)

/-- The payload of a document is one that was written for the fields of the message. -/
theorem exists_writtenPayload (wellFormed : pool.WellFormed) {id : MessageId}
    (found : pool.message? id = some message) (notEntry : message.isMapEntry = false)
    (regular : pool.Regular message) {members : Members} {payload : Bytes} {document : Json.Value}
    (encoded : encodeMembers pool message members = .ok payload) (short : payload.length < 2 ^ 32)
    (decoded : decodeLevel pool .plain decoder entryDecoder message payload = .ok document) :
    ∃ wires shown, WrittenPayload pool decoder entryDecoder message wires shown ∧
      payload = writtenFields message wires ∧
      document = .object (shownMembers shown message.fields) := by
  have there : message ∈ pool.messages := List.mem_of_getElem? found
  have indexed := (wellFormed.messages message there).indexed
  rcases exists_of_encodeMembers indexed encoded with ⟨given, facts, exclusive, _, whole⟩
  have each (field : Field) (value : Json.Value) (isGiven : given field = some value) :
      ∃ wires, WrittenAs pool decoder entryDecoder message field value wires := by
    rcases facts field value isGiven with ⟨member, _, _, records, written⟩
    exact exists_writtenAs (regularField wellFormed there notEntry regular member) written
  rcases exists_wires_of_held each with ⟨wires, absent, writtenAs⟩
  have isPayload := whole wires
    (fun field value isGiven => (writtenAs field value isGiven).legible.records) absent
  subst isPayload
  have written (field : Field) :
      MayWrite pool decoder entryDecoder message field (wires field) := by
    cases isGiven : given field with
    | none => exact Or.inl (absent field isGiven)
    | some value => exact Or.inr ⟨value, writtenAs field value isGiven⟩
  have wiresExclusive : Exclusive message fun field => wires field ≠ [] := by
    apply exclusive.imp
    intro field _ some
    cases isGiven : given field with
    | none => exact absurd (absent field isGiven) some
    | some value => rfl
  have never : ∀ field ∈ message.fields, ∀ wire ∈ wires field,
      contribution? pool decoder entryDecoder message field wire ≠ none := by
    intro field _ wire isWire
    rcases written field with none | ⟨_, writtenAs⟩
    · exact absurd none (List.ne_nil_of_mem isWire)
    · exact writtenAs.legible.readable wire isWire
  have fits := fits_of_length_writtenFields short
  rcases exists_of_decodeLevel_writtenFields indexed fits decoded never wiresExclusive with
    ⟨contribute, shown, values, same⟩
  exact ⟨wires, shown, ⟨fun field _ => written field, wiresExclusive, fits, contribute, values⟩,
    rfl, same⟩

/-- A member of a oneof is shown if it is written. -/
theorem WrittenPayload.isSome_iff (wellFormed : message.WellFormed pool)
    {wires : Field → List Wire.Value} {shown : Field → Option Json.Value}
    (payload : WrittenPayload pool decoder entryDecoder message wires shown) {field : Field}
    (member : field ∈ message.fields) (inOneof : field.oneof.isSome = true) :
    (shown field).isSome = true ↔ wires field ≠ [] := by
  rcases wellFormed.oneofsSingle field member inOneof with ⟨type, explicit, shape⟩
  exact isSome_iff_of_mayWrite shape (payload.written field member) (payload.fits field member)
    (payload.contribute field member) (payload.values field member)

/-- What sets another member of a oneof is what something was written for. -/
theorem WrittenPayload.setsOther_iff (wellFormed : message.WellFormed pool)
    {wires : Field → List Wire.Value} {shown : Field → Option Json.Value}
    (payload : WrittenPayload pool decoder entryDecoder message wires shown) {members : Members}
    (sameNames : ∀ field ∈ message.fields,
      (members.lookup field.name).isSome = (shown field).isSome) (field : Field) :
    setsOther message members field = true ↔ field.oneof.isSome = true ∧
      ∃ other ∈ message.fields, other.oneof = field.oneof ∧ other.number ≠ field.number ∧
        wires other ≠ [] := by
  simp only [setsOther, Bool.and_eq_true, List.any_eq_true, decide_eq_true_eq, and_assoc]
  apply and_congr_right
  intro inOneof
  apply exists_congr
  intro other
  apply and_congr_right
  intro declared
  apply and_congr_right
  intro sameOneof
  rw [sameNames other declared, payload.isSome_iff wellFormed declared (sameOneof ▸ inOneof)]

/-- A payload displaces a field if its document sets another member of the oneof. -/
theorem WrittenPayload.any_displaces (wellFormed : message.WellFormed pool)
    {wires : Field → List Wire.Value} {shown : Field → Option Json.Value}
    (payload : WrittenPayload pool decoder entryDecoder message wires shown) {members : Members}
    (sameNames : ∀ field ∈ message.fields,
      (members.lookup field.name).isSome = (shown field).isSome) (field : Field) :
    (writtenOccurrences pool decoder entryDecoder message wires).any
        (fun occurrence => occurrence.displaces field) = setsOther message members field := by
  rw [Bool.eq_iff_iff, payload.setsOther_iff wellFormed sameNames, List.any_eq_true]
  simp only [Occurrence.displaces, Bool.and_eq_true, decide_eq_true_eq]
  constructor
  · rintro ⟨occurrence, there, ⟨inOneof, sameOneof⟩, different⟩
    rcases mem_of_writtenOccurrences there with ⟨declared, written⟩
    exact ⟨inOneof, occurrence.field, declared, sameOneof, different, written⟩
  · rintro ⟨inOneof, other, declared, sameOneof, different, written⟩
    rcases exists_writtenOccurrence declared (payload.contribute other declared) written with
      ⟨occurrence, there, isField⟩
    subst isField
    exact ⟨occurrence, there, ⟨inOneof, sameOneof⟩, different⟩

/-- What displaces a field comes from a document that does not show it. -/
theorem WrittenPayload.shown_of_setsOther (wellFormed : message.WellFormed pool)
    {wires : Field → List Wire.Value} {shown : Field → Option Json.Value}
    (payload : WrittenPayload pool decoder entryDecoder message wires shown) {members : Members}
    (sameNames : ∀ field ∈ message.fields,
      (members.lookup field.name).isSome = (shown field).isSome) {field : Field}
    (member : field ∈ message.fields) (sets : setsOther message members field = true) :
    shown field = none := by
  rcases (payload.setsOther_iff wellFormed sameNames field).mp sets with
    ⟨inOneof, other, declared, sameOneof, different, written⟩
  by_contra isShown
  have fieldWritten := (payload.isSome_iff wellFormed member inOneof).mp
    (Option.isSome_iff_ne_none.mpr isShown)
  have same := payload.exclusive field member other declared inOneof sameOneof.symm fieldWritten
    written
  exact different (same ▸ rfl)

/-- What was shown and what is shown later for a field make up what its member of the merge is. -/
theorem overlaid_member (indexed : message.Indexed) (earlier later : Field → Option Json.Value)
    {field : Field} (member : field ∈ message.fields) :
    ((mergeFields pool message (shownMembers earlier message.fields)
        (shownMembers later message.fields)).lookup field.name).or
      ((shownMembers earlier message.fields).lookup field.name) =
      mergeShown pool field.shape (earlier field) (later field) := by
  rw [lookup_mergeFields, lookup_shownMembers indexed.namesDistinct member,
    lookup_shownMembers indexed.namesDistinct member, indexed.fieldByName?_of_mem member]
  cases later field with
  | none => rfl
  | some value => cases earlier field <;> rfl

/-- By the fields of the message.  A field that the later payload displaces is not in it, and
every other field has the contributions of both payloads. -/
theorem JoinsPayloads.decodeLevel (wellFormed : pool.WellFormed)
    (nested : JoinsPayloads pool decoder) :
    JoinsPayloads pool (decodeLevel pool .plain decoder entryDecoder) := by
  intro id message found notEntry regular first second firstPayload secondPayload earlier later
    firstEncoded secondEncoded firstShort secondShort firstDecoded secondDecoded
  have messageWellFormed := wellFormed.messages message (List.mem_of_getElem? found)
  have indexed := messageWellFormed.indexed
  rcases exists_writtenPayload wellFormed found notEntry regular firstEncoded firstShort
      firstDecoded with
    ⟨firstWires, firstShown, firstWritten, firstSame, isEarlier⟩
  rcases exists_writtenPayload wellFormed found notEntry regular secondEncoded secondShort
      secondDecoded with
    ⟨secondWires, secondShown, secondWritten, secondSame, isLater⟩
  subst firstSame secondSame isEarlier isLater
  have read := readPayload_writtenFields_append indexed firstWritten.fits secondWritten.fits
    firstWritten.contribute secondWritten.contribute
  let merged := mergeFields pool message (shownMembers firstShown message.fields)
    (shownMembers secondShown message.fields)
  have sameNames : ∀ field ∈ message.fields,
      (merged.lookup field.name).isSome = (secondShown field).isSome := by
    intro field member
    rw [lookup_mergeFields, Option.isSome_map, lookup_shownMembers indexed.namesDistinct member]
  have values : ∀ field ∈ message.fields, fieldValue pool .plain decoder field
      (contributionsTo field
        (writtenOccurrences pool decoder entryDecoder message firstWires ++
          writtenOccurrences pool decoder entryDecoder message secondWires)) =
        .ok ((merged.lookup field.name).or
          (if setsOther message merged field then none
            else (shownMembers firstShown message.fields).lookup field.name)) := by
    intro field member
    rw [contributionsTo_append, secondWritten.any_displaces messageWellFormed sameNames,
      contributionsTo_writtenOccurrences indexed firstWritten.exclusive member,
      contributionsTo_writtenOccurrences indexed secondWritten.exclusive member]
    by_cases displaced : setsOther message merged field = true
    · have notShown := secondWritten.shown_of_setsOther messageWellFormed sameNames member displaced
      have noMember : merged.lookup field.name = none := by
        rw [← Option.isNone_iff_eq_none, ← Option.not_isSome, sameNames field member, notShown]
        rfl
      rw [if_pos displaced, if_pos displaced, secondWritten.values field member, notShown, noMember]
      rfl
    · rw [if_neg displaced, if_neg displaced, overlaid_member indexed firstShown secondShown member]
      exact fieldValue_append nested (firstWritten.written field member)
        (secondWritten.written field member) (firstWritten.fits field member)
        (secondWritten.fits field member)
        (secondWritten.contribute field member) (firstWritten.values field member)
        (secondWritten.values field member)
  have assembled : assemble pool .plain decoder _ [] message.fields = .ok _ :=
    assemble_of_fieldValue values indexed.namesDistinct fun _ _ => List.not_mem_nil
  exact decodeLevel_eq_ok_iff.mpr ⟨_, read, _, assembled, rfl⟩

/-- By induction on the levels. -/
theorem joinsPayloads_decodeWithin (wellFormed : pool.WellFormed) (levels : Nat) :
    JoinsPayloads pool (decodeWithin pool .plain levels) := by
  have refused : JoinsPayloads pool refuse :=
    fun _ _ _ _ _ _ _ _ _ _ _ _ _ _ _ impossible => nomatch impossible
  induction levels using decodeWithin.induct with
  | case1 => exact refused
  | case2 => exact JoinsPayloads.decodeLevel wellFormed refused
  | case3 levels below => exact JoinsPayloads.decodeLevel wellFormed below

end Messages
end Payload

open Json Schema Payload

/-- A schema with a message that has fields of all shapes, two of them in a oneof. -/
def pageAttempts : List (String × String) :=
  [("page.proto", "message Page\x7bint32 width=1;repeated int32 marks=2;map<string,int32> counts=3;"
    ++ "Page inner=4;oneof body\x7bstring text=5;Page picture=6;\x7d\x7d")]

theorem regular_of_pageAttempts {name : String} {message : Message}
    (found : (Pool.registerAll pageAttempts).findMessage? name = some message) :
    (Pool.registerAll pageAttempts).Regular message := by
  rcases (Pool.wellFormed_registerAll pageAttempts).exists_of_findMessage? found with ⟨id, there, _⟩
  apply Pool.regular_of_forall _ _ (List.mem_of_getElem? there)
  · rw [pageAttempts, ← String.ofList_append, Pool.registerAll_ofList]
    decide +kernel
  · rw [pageAttempts, ← String.ofList_append, Pool.registerAll_ofList]
    decide +kernel

def writtenPage : Json.Value :=
  .object [("width", .number (.integer 3)), ("marks", .array [.number (.integer 1)]),
    ("counts", .object [("a", .number (.integer 1)), ("b", .number (.integer 2))]),
    ("inner", .object [("width", .number (.integer 7))]), ("text", .string "t")]

def writtenPayload : Bytes :=
  [8, 3, 16, 1, 26, 5, 10, 1, 97, 16, 1, 26, 5, 10, 1, 98, 16, 2, 34, 2, 8, 7, 42, 1, 116]

def paintedPage : Json.Value :=
  .object [("marks", .array [.number (.integer 4)]),
    ("counts", .object [("b", .number (.integer 5))]),
    ("inner", .object [("marks", .array [.number (.integer 6)])]), ("picture", .object [])]

def paintedPayload : Bytes :=
  [16, 4, 26, 5, 10, 1, 98, 16, 5, 34, 2, 16, 6, 50, 0]

example :
    (decode (.registerAll pageAttempts) .plain "Page" (writtenPayload ++ paintedPayload)).toOption.map
        (·.text) =
      some ("\x7b\"width\":3,\"marks\":[1,4],\"counts\":\x7b\"a\":1,\"b\":5\x7d,"
        ++ "\"inner\":\x7b\"width\":7,\"marks\":[6]\x7d,\"picture\":\x7b\x7d\x7d") := by
  rw [pageAttempts, ← String.ofList_append, Pool.registerAll_ofList]
  decide +kernel

end SchemaRecords
