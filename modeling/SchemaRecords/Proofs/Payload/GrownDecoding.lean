import SchemaRecords.Payload.Decoding
import SchemaRecords.Proofs.Outcome
import SchemaRecords.Proofs.Schema.Relocation

/-!
# Decoding in a pool that has grown

A decoder follows references from one message to the next, and in a well-formed pool these
never lead outside of it.  What else a larger pool contains is therefore never looked at, and
neither are the places themselves: wherever the pool is embedded, a payload decodes to the same
document, or is refused for the same reason.  With the pool itself as the larger one the same
argument shows that no reference is ever missing.

The parts of the decoder take the decoders of nested messages as parameters.  So each lemma
compares a part in two pools under the assumption that these parameters agree on the
messages of the smaller pool, and only the last one is by induction on the levels.
-/

namespace SchemaRecords.Payload

open SchemaRecords.Schema
open Outcome (Same SameIfAny)

/-- A refusal that says that the pool itself is defective. -/
def DecodeError.Dangling : DecodeError → Prop
  | .unlinked _ => True
  | .malformedEntry _ => True
  | .inField _ source => source.Dangling
  | _ => False

/-- Two decoders that make the same of every payload of every message of a pool, which the second
one sees with other places. -/
def Agree (relocation : Relocation) (pool : Pool) (first second : Decoder) : Prop :=
  ∀ id message, pool.message? id = some message → ∀ payload,
    Same DecodeError.Dangling (first message payload)
      (second (message.relocate relocation) payload)

section Parts

variable {relocation : Relocation} {pool grown : Pool} {first second : Decoder}

/-! ## Values -/

theorem inField_same {α : Type} {one other : Decoded α} (same : Same DecodeError.Dangling one other)
    (field : String) : Same DecodeError.Dangling (inField field one) (inField field other) := by
  rcases same.cases with ⟨value, left, right⟩ | ⟨refusal, left, right, possible⟩
  · rw [left, right]
    exact .ok value
  · rw [left, right]
    exact .error possible

theorem follow_same (embeds : Pool.Embeds relocation pool grown)
    (agree : Agree relocation pool first second) {id : MessageId}
    (known : pool.HasType (.message id)) (payload : Bytes) :
    Same DecodeError.Dangling (first.follow pool id payload)
      (second.follow grown (relocation.message id) payload) := by
  rcases known with ⟨message, found⟩
  simp only [Decoder.follow, found, embeds.message id message found]
  exact agree id message found payload

theorem renderEnumeration_embeds (embeds : Pool.EmbedsEnumerations relocation pool grown)
    {id : EnumerationId} (known : pool.HasType (.enumeration id)) (number : Int) :
    renderEnumeration grown (relocation.enumeration id) number =
      renderEnumeration pool id number := by
  rcases known with ⟨enumeration, found⟩
  rw [renderEnumeration, renderEnumeration, found, embeds id enumeration found]
  rfl

theorem renderPackable?_embeds (embeds : Pool.EmbedsEnumerations relocation pool grown)
    {type : ValueType} (known : pool.HasType type) (value : Wire.Value) :
    renderPackable? grown (type.relocate relocation) value = renderPackable? pool type value := by
  cases type with
  | scalar type => rfl
  | message id => rfl
  | enumeration id =>
    cases value with
    | varint word => exact congrArg some (renderEnumeration_embeds embeds known _)
    | fixed64 word => rfl
    | fixed32 word => rfl
    | delimited content => rfl

theorem renderDefault_embeds (embeds : Pool.EmbedsEnumerations relocation pool grown)
    {type : ValueType} (known : pool.HasType type) :
    renderDefault grown (type.relocate relocation) = renderDefault pool type := by
  cases type with
  | scalar type => cases type <;> rfl
  | message id => rfl
  | enumeration id =>
    rcases known with ⟨enumeration, found⟩
    simp only [ValueType.relocate, renderDefault, found, embeds id enumeration found,
      renderEnumeration_embeds embeds ⟨enumeration, found⟩]
    rfl

theorem isDefault_embeds (embeds : Pool.EmbedsEnumerations relocation pool grown)
    {type : ValueType} (known : pool.HasType type) (value : Json.Value) :
    isDefault grown (type.relocate relocation) value = isDefault pool type value := by
  rw [isDefault, isDefault, renderDefault_embeds embeds known]

theorem readValue?_same (embeds : Pool.Embeds relocation pool grown)
    (agree : Agree relocation pool first second) {type : ValueType} (known : pool.HasType type)
    (message field : String) (value : Wire.Value) :
    SameIfAny DecodeError.Dangling (readValue? pool first message field type value)
      (readValue? grown second message field (type.relocate relocation) value) := by
  have packable : SameIfAny DecodeError.Dangling ((renderPackable? pool type value).map .ok)
      ((renderPackable? grown (type.relocate relocation) value).map .ok) := by
    rw [renderPackable?_embeds embeds.enumeration known]
    cases renderPackable? pool type value with
    | none => exact .none
    | some rendered => exact (Same.ok rendered).some
  cases value with
  | delimited content =>
    cases type with
    | message id => exact (inField_same (follow_same embeds agree known content) field).some
    | enumeration id => exact packable
    | scalar type =>
      cases type
      case string =>
        simp only [ValueType.relocate, readValue?]
        split
        · exact (Same.ok _).some
        · exact (Same.error id).some
      case bytes => exact (Same.ok _).some
      all_goals exact packable
  | _ =>
    cases type with
    | scalar type => cases type <;> exact packable
    | _ => exact packable

theorem readPacked_same (embeds : Pool.Embeds relocation pool grown) {type : ValueType}
    (known : pool.HasType type) (message : String) (content : Bytes) :
    Same DecodeError.Dangling (readPacked pool message type content)
      (readPacked grown message (type.relocate relocation) content) := by
  rw [readPacked, readPacked, ValueType.layout_relocate,
    funext (renderPackable?_embeds embeds.enumeration known)]
  split
  · exact .ok _
  · exact .error id

/-! ## Records -/

theorem readRecords_same {α : Type} {one other : Wire.Record → Option (Decoded α)}
    (same : ∀ record, SameIfAny DecodeError.Dangling (one record) (other record))
    (records : List Wire.Record) :
    Same DecodeError.Dangling (readRecords one records) (readRecords other records) := by
  induction records with
  | nil => exact .ok []
  | cons record rest inductionHypothesis =>
    simp only [readRecords, (same record).same]
    split
    · exact inductionHypothesis
    · exact .error ((same record).possible _ ‹_›)
    · rcases inductionHypothesis.cases with ⟨values, left, right⟩ | ⟨refusal, left, right, possible⟩
      · rw [left, right]
        exact .ok _
      · rw [left, right]
        exact .error possible

theorem readPayload_same {α : Type} {one other : Wire.Record → Option (Decoded α)}
    (same : ∀ record, SameIfAny DecodeError.Dangling (one record) (other record))
    (message : String) (payload : Bytes) :
    Same DecodeError.Dangling (readPayload message one payload)
      (readPayload message other payload) := by
  unfold readPayload
  rcases (readRecords_same same (Wire.Record.split payload).1).cases with
    ⟨values, left, right⟩ | ⟨refusal, left, right, possible⟩
  · simp only [left, right]
    split
    · exact .error id
    · exact .ok values
  · simp only [left, right]
    exact .error possible

theorem readRecords_map {α β : Type} (f : α → β) (interpret : Wire.Record → Option (Decoded α))
    (records : List Wire.Record) :
    readRecords (fun record => (interpret record).map (·.map f)) records =
      (readRecords interpret records).map (List.map f) := by
  induction records with
  | nil => rfl
  | cons record rest inductionHypothesis =>
    simp only [readRecords, inductionHypothesis]
    cases interpret record with
    | none => rfl
    | some run =>
      cases run with
      | error refusal => rfl
      | ok value => cases readRecords interpret rest <;> rfl

theorem readPayload_map {α β : Type} (f : α → β) (interpret : Wire.Record → Option (Decoded α))
    (message : String) (payload : Bytes) :
    readPayload message (fun record => (interpret record).map (·.map f)) payload =
      (readPayload message interpret payload).map (List.map f) := by
  simp only [readPayload, readRecords_map]
  rcases Wire.Record.split payload with ⟨records, fault⟩
  cases readRecords interpret records with
  | error refusal => rfl
  | ok values => cases fault <;> rfl

/-! ## Map entries -/

theorem readEntryPart_same (embeds : Pool.Embeds relocation pool grown)
    (agree : Agree relocation pool first second) {key value : Field}
    (keyKnown : pool.HasType key.type) (valueKnown : pool.HasType value.type) (entry : String)
    (record : Wire.Record) :
    SameIfAny DecodeError.Dangling (readEntryPart pool first entry key value record)
      (readEntryPart grown second entry (key.relocate relocation) (value.relocate relocation)
        record) := by
  unfold readEntryPart
  simp only [Field.name_relocate, Field.type_relocate]
  split
  · exact .none
  · split
    · exact (readValue?_same embeds agree keyKnown _ _ _).map fun run same => same.map _
    · split
      · exact (readValue?_same embeds agree valueKnown _ _ _).map fun run same => same.map _
      · exact .none

theorem decodeMissing_same (embeds : Pool.Embeds relocation pool grown)
    (agree : Agree relocation pool first second) {type : ValueType} (known : pool.HasType type) :
    Same DecodeError.Dangling (decodeMissing pool first type)
      (decodeMissing grown second (type.relocate relocation)) := by
  have default : Same DecodeError.Dangling (.ok (renderDefault pool type))
      (.ok (renderDefault grown (type.relocate relocation))) := by
    rw [renderDefault_embeds embeds.enumeration known]
    exact .ok _
  cases type with
  | message id => exact follow_same embeds agree known []
  | _ => exact default

theorem decodeEntry_same (embeds : Pool.Embeds relocation pool grown)
    (agree : Agree relocation pool first second) {entry : Message}
    (wellFormed : entry.WellFormed pool) (isEntry : entry.IsEntry) (payload : Bytes) :
    Same DecodeError.Dangling (decodeEntry pool first entry payload)
      (decodeEntry grown second (entry.relocate relocation) payload) := by
  rcases isEntry.2 with ⟨key, type, _, fields⟩
  have types := wellFormed.types
  rw [fields] at types
  have keyKnown := types (.entryKey key) List.mem_cons_self
  have valueKnown := types (.entryValue type) (List.mem_cons_of_mem _ List.mem_cons_self)
  have relocated : (entry.relocate relocation).fields =
      [.entryKey key, .entryValue (type.relocate relocation)] := by
    rw [Message.fields_relocate, fields]
    rfl
  simp only [decodeEntry, fields, relocated, Message.fullName_relocate]
  refine (readPayload_same (readEntryPart_same embeds agree keyKnown valueKnown _) _ _).bind
    fun parts _ => ?_
  have default := renderDefault_embeds embeds.enumeration keyKnown
  split
  · exact default ▸ .ok _
  · exact (decodeMissing_same embeds agree valueKnown).bind fun found _ => default ▸ .ok _

theorem decodeEntryAt_same (embeds : Pool.Embeds relocation pool grown)
    (poolWellFormed : pool.WellFormed) (agree : Agree relocation pool first second) {id : MessageId}
    (isEntry : ∃ entry, pool.message? id = some entry ∧ entry.IsEntry) (payload : Bytes) :
    Same DecodeError.Dangling (decodeEntryAt pool first id payload)
      (decodeEntryAt grown second (relocation.message id) payload) := by
  rcases isEntry with ⟨entry, found, isEntry⟩
  simp only [decodeEntryAt, found, embeds.message id entry found]
  exact decodeEntry_same embeds agree
    (poolWellFormed.messages entry (List.mem_of_getElem? found)) isEntry payload

/-! ## Fields -/

theorem contribution?_same (embeds : Pool.Embeds relocation pool grown)
    (poolWellFormed : pool.WellFormed) {firstEntry secondEntry : Decoder}
    (agree : Agree relocation pool first second)
    (entriesAgree : Agree relocation pool firstEntry secondEntry) {message : Message}
    (wellFormed : message.WellFormed pool) {field : Field} (member : field ∈ message.fields)
    (value : Wire.Value) :
    SameIfAny DecodeError.Dangling (contribution? pool first firstEntry message field value)
      (contribution? grown second secondEntry (message.relocate relocation)
        (field.relocate relocation) value) := by
  have known := wellFormed.types field member
  have entries := wellFormed.entries field member
  unfold Field.type at known
  unfold contribution?
  rw [Field.shape_relocate]
  generalize field.shape = shape at known entries ⊢
  cases shape with
  | map entry =>
    cases value with
    | delimited content =>
      refine (inField_same (Same.map ?_ _) field.name).some
      exact decodeEntryAt_same embeds poolWellFormed entriesAgree (entries entry rfl) content
    | varint word => exact .none
    | fixed64 word => exact .none
    | fixed32 word => exact .none
  | repeated type packed =>
    have single := readValue?_same embeds agree known message.fullName field.name
    cases value with
    | delimited content =>
      simp only [Shape.relocate, ValueType.isPackable_relocate]
      split
      · exact ((readPacked_same embeds known _ _).map _).some
      · exact (single _).map fun run same => same.map _
    | varint word => exact (single _).map fun run same => same.map _
    | fixed64 word => exact (single _).map fun run same => same.map _
    | fixed32 word => exact (single _).map fun run same => same.map _
  | singular type explicit =>
    have single := readValue?_same embeds agree known message.fullName field.name value
    cases type with
    | message id =>
      cases value with
      | delimited content => exact (Same.ok _).some
      | varint word => exact single.map fun run same => same.map _
      | fixed64 word => exact single.map fun run same => same.map _
      | fixed32 word => exact single.map fun run same => same.map _
    | scalar type => exact single.map fun run same => same.map _
    | enumeration id => exact single.map fun run same => same.map _

/-- A field that is found by number is one of the message. -/
theorem mem_of_fieldByNumber? {message : Message} {number : Nat} {field : Field}
    (found : message.fieldByNumber? number = some field) : field ∈ message.fields := by
  rcases Option.bind_eq_some_iff.mp found with ⟨position, _, there⟩
  exact List.mem_of_getElem? there

/-- A record with a value of a declared field is what the field makes of it. -/
theorem occurrence?_of_field {decoder entryDecoder : Decoder} {message : Message}
    {record : Wire.Record} {value : Wire.Value} {field : Field} (holds : record.value = some value)
    (found : message.fieldByNumber? record.number = some field) :
    occurrence? pool decoder entryDecoder message record =
      (contribution? pool decoder entryDecoder message field value).map
        (·.map (Occurrence.mk field)) := by
  simp only [occurrence?, holds, found, Option.bind_eq_bind, Option.bind_some, Option.pure_def]
  cases contribution? pool decoder entryDecoder message field value <;> rfl

/-- An occurrence once places have changed. -/
def Occurrence.relocate (relocation : Relocation) (occurrence : Occurrence) : Occurrence :=
  ⟨occurrence.field.relocate relocation, occurrence.contribution⟩

theorem contributionsTo_relocate (field : Field) (occurrences : List Occurrence) :
    contributionsTo (field.relocate relocation) (occurrences.map (·.relocate relocation)) =
      contributionsTo field occurrences := by
  simp only [contributionsTo, ← List.map_reverse, List.takeWhile_map, List.filter_map, List.map_map]
  rfl

theorem occurrence?_same (embeds : Pool.Embeds relocation pool grown)
    (poolWellFormed : pool.WellFormed) {firstEntry secondEntry : Decoder}
    (agree : Agree relocation pool first second)
    (entriesAgree : Agree relocation pool firstEntry secondEntry) {message : Message}
    (wellFormed : message.WellFormed pool) (record : Wire.Record) :
    SameIfAny DecodeError.Dangling
      ((occurrence? pool first firstEntry message record).map (·.map (·.relocate relocation)))
      (occurrence? grown second secondEntry (message.relocate relocation) record) := by
  cases holds : record.value with
  | none =>
    simp only [occurrence?, holds, Option.bind_eq_bind, Option.bind_none]
    exact .none
  | some value =>
    cases found : message.fieldByNumber? record.number with
    | none =>
      simp only [occurrence?, holds, found, message.fieldByNumber?_relocate, Option.bind_eq_bind,
        Option.bind_some, Option.bind_none, Option.map_none]
      exact .none
    | some field =>
      have relocated : (message.relocate relocation).fieldByNumber? record.number =
          some (field.relocate relocation) := by
        rw [message.fieldByNumber?_relocate, found, Option.map_some]
      have ofField (run : Decoded Contribution) :
          (run.map (Occurrence.mk field)).map (·.relocate relocation) =
            run.map (Occurrence.mk (field.relocate relocation)) := by
        cases run <;> rfl
      rw [occurrence?_of_field holds found, occurrence?_of_field holds relocated]
      simp only [Option.map_map, Function.comp_def, ofField]
      exact (contribution?_same embeds poolWellFormed agree entriesAgree wellFormed
        (mem_of_fieldByNumber? found) value).map fun run same => same.map _

theorem fieldValue_same (embeds : Pool.Embeds relocation pool grown)
    (agree : Agree relocation pool first second) {message : Message}
    (wellFormed : message.WellFormed pool) {field : Field} (member : field ∈ message.fields)
    (options : Options) (contributions : List Contribution) :
    Same DecodeError.Dangling (fieldValue pool options first field contributions)
      (fieldValue grown options second (field.relocate relocation) contributions) := by
  have known := wellFormed.types field member
  unfold Field.type at known
  unfold fieldValue
  rw [Field.shape_relocate, Field.hasPresence_relocate]
  generalize field.shape = shape at known ⊢
  cases shape with
  | map entry =>
    simp only
    split
    · exact .ok _
    · exact .ok _
  | repeated type packed =>
    simp only
    split
    · exact .ok _
    · exact .ok _
  | singular type explicit =>
    have sameDefault := renderDefault_embeds embeds.enumeration known
    have sameTest := fun value => isDefault_embeds embeds.enumeration known value
    have fine {run : Decoded (Option Json.Value)} (succeeds : ∃ value, run = .ok value) :
        Same DecodeError.Dangling run run := by
      rcases succeeds with ⟨value, same⟩
      exact same ▸ .ok value
    cases type with
    | message id =>
      simp only
      split
      · exact .ok _
      · exact (inField_same (follow_same embeds agree known _) _).map _
    | scalar type =>
      simp only [Shape.type, Shape.relocate, ValueType.relocate] at sameDefault sameTest ⊢
      simp only [sameDefault, sameTest]
      exact fine (by split <;> split <;> exact ⟨_, rfl⟩)
    | enumeration id =>
      simp only [Shape.type, Shape.relocate, ValueType.relocate] at sameDefault sameTest ⊢
      simp only [sameDefault, sameTest]
      exact fine (by split <;> split <;> exact ⟨_, rfl⟩)

theorem assemble_same (embeds : Pool.Embeds relocation pool grown)
    (agree : Agree relocation pool first second) {message : Message}
    (wellFormed : message.WellFormed pool) (options : Options) (occurrences : List Occurrence)
    {fields : List Field} (among : ∀ field ∈ fields, field ∈ message.fields)
    (members : Json.Members) :
    Same DecodeError.Dangling (assemble pool options first occurrences members fields)
      (assemble grown options second (occurrences.map (·.relocate relocation)) members
        (fields.map (·.relocate relocation))) := by
  induction fields generalizing members with
  | nil => exact .ok members
  | cons field rest inductionHypothesis =>
    have later := inductionHypothesis
      fun other member => among other (List.mem_cons_of_mem _ member)
    have value := fieldValue_same embeds agree wellFormed (among field List.mem_cons_self) options
      (contributionsTo field occurrences)
    simp only [assemble, List.map_cons, contributionsTo_relocate]
    rcases value.cases with ⟨shown, left, right⟩ | ⟨refusal, left, right, possible⟩
    · rw [left, right]
      cases shown with
      | none => exact later members
      | some value => exact later _
    · rw [left, right]
      exact .error possible

/-! ## Messages -/

theorem decodeLevel_same (embeds : Pool.Embeds relocation pool grown)
    (poolWellFormed : pool.WellFormed) {firstEntry secondEntry : Decoder}
    (agree : Agree relocation pool first second)
    (entriesAgree : Agree relocation pool firstEntry secondEntry) (options : Options) :
    Agree relocation pool (decodeLevel pool options first firstEntry)
      (decodeLevel grown options second secondEntry) := by
  intro id message found payload
  have wellFormed := poolWellFormed.messages message (List.mem_of_getElem? found)
  have occurrences := readPayload_same
    (occurrence?_same embeds poolWellFormed agree entriesAgree wellFormed) message.fullName payload
  rw [readPayload_map] at occurrences
  simp only [decodeLevel, Message.fullName_relocate, occurrences.same]
  cases read : readPayload message.fullName (occurrence? pool first firstEntry message) payload with
  | error refusal =>
    rw [read] at occurrences
    exact .error (occurrences.possible refusal rfl)
  | ok found =>
    exact (assemble_same embeds agree wellFormed options found (fun _ member => member) []).bind
      fun members _ => .ok (Json.Value.object members)

end Parts

/-- By induction on the levels.  Messages lose one of them, entries two. -/
theorem decodeWithin_agree {relocation : Relocation} {pool grown : Pool}
    (poolWellFormed : pool.WellFormed) (embeds : Pool.Embeds relocation pool grown)
    (options : Options) (levels : Nat) :
    Agree relocation pool (decodeWithin pool options levels)
      (decodeWithin grown options levels) := by
  have refused : Agree relocation pool refuse refuse := fun _ _ _ _ => .error id
  induction levels using decodeWithin.induct with
  | case1 => exact refused
  | case2 => exact decodeLevel_same embeds poolWellFormed refused refused options
  | case3 levels below entriesBelow =>
    exact decodeLevel_same embeds poolWellFormed below entriesBelow options

end SchemaRecords.Payload
