import SchemaRecords.Payload.Encoding
import SchemaRecords.Proofs.Outcome
import SchemaRecords.Proofs.Schema.Relocation

/-!
# Encoding in a pool that has grown

As for decoding: from a message of a well-formed pool only descriptors of that pool can be
reached, so wherever the pool is embedded, every document is encoded to the same payload, or
refused for the same reason, and no reference is ever missing.

The encoder follows the document, not the schema, so the proof is by induction on the
document.  Settings hold the outcome of converting a value without looking at it; what is
known of them has to reach into the outcomes that they hold.
-/

namespace SchemaRecords.Payload

open SchemaRecords.Schema
open Outcome (Same)

/-- A refusal that says that the pool itself is defective. -/
def EncodeError.Dangling : EncodeError → Prop
  | .unlinked _ => True
  | .malformedEntry _ => True
  | _ => False

/-! ## Scalars -/

theorem readLong_same (range other : IntegerRange) (field : String) (type : ValueType)
    (value : Json.Value) :
    Same EncodeError.Dangling (readLong range other field type value)
      (readLong range other field type value) := by
  unfold readLong
  split
  · split
    · exact .ok _
    · exact .error id
  · split
    · exact .error id
    · split
      · exact .ok _
      · exact .error id
  · dsimp only
    split
    · exact .ok _
    · split
      · exact .error id
      · exact .error id
  · exact .error id

theorem readSigned_same (width : Nat) (field : String) (type : ValueType) (value : Json.Value) :
    Same EncodeError.Dangling (readSigned width field type value)
      (readSigned width field type value) := by
  unfold readSigned
  split
  · exact .error ((readLong_same _ _ field type value).possible _ ‹_›)
  · split
    · exact .ok _
    · exact .error id

theorem readUnsigned_same (width : Nat) (field : String) (type : ValueType) (value : Json.Value) :
    Same EncodeError.Dangling (readUnsigned width field type value)
      (readUnsigned width field type value) := by
  unfold readUnsigned
  split
  · exact .error ((readLong_same _ _ field type value).possible _ ‹_›)
  · split
    · exact .ok _
    · exact .error id

theorem readDouble_same (field : String) (value : Json.Value) :
    Same EncodeError.Dangling (readDouble field value) (readDouble field value) := by
  unfold readDouble
  split
  case h_6 =>
    split
    · exact .ok _
    · exact .error id
  case h_7 => exact .error id
  all_goals exact .ok _

theorem readSingle_same (field : String) (type : ValueType) (value : Json.Value) :
    Same EncodeError.Dangling (readSingle field type value) (readSingle field type value) := by
  unfold readSingle
  split
  · exact .error ((readDouble_same field value).possible _ ‹_›)
  · split
    · exact .error id
    · exact .ok _

theorem convertScalar_same (field : String) (type : Scalar) (value : Json.Value) :
    Same EncodeError.Dangling (convertScalar field type value) (convertScalar field type value) := by
  cases type
  case float => exact (readSingle_same _ _ _).map _
  case double => exact (readDouble_same _ _).map _
  case bool | string =>
    simp only [convertScalar]
    split
    · exact .ok _
    · exact .error id
  case bytes =>
    simp only [convertScalar]
    split
    · split
      · exact .ok _
      · exact .error id
    · exact .error id
  case uint32 | uint64 | fixed32 | fixed64 => exact (readUnsigned_same _ _ _ _).map _
  all_goals exact (readSigned_same _ _ _ _).map _

/-! ## Types of a pool -/

section Values

variable {relocation : Relocation} {pool grown : Pool}

theorem readSigned_relocate (width : Nat) (field : String) (type : ValueType) (value : Json.Value) :
    readSigned width field (type.relocate relocation) value =
      readSigned width field type value := by
  simp only [readSigned, readLong, outOfRange, ValueType.keyword_relocate]

theorem keyValue_relocate (type : ValueType) (key : String) :
    keyValue (type.relocate relocation) key = keyValue type key := by
  cases type <;> rfl

theorem convertSimple_same (embeds : Pool.Embeds relocation pool grown) (field : String)
    {type : ValueType} (known : pool.HasType type) (value : Json.Value) :
    Same EncodeError.Dangling (convertSimple pool field type value)
      (convertSimple grown field (type.relocate relocation) value) := by
  cases type with
  | scalar type => exact convertScalar_same field type value
  | message id => exact .error fun impossible => impossible
  | enumeration id =>
    rcases known with ⟨enumeration, found⟩
    have sameSigned : readSigned 32 field (.enumeration (relocation.enumeration id)) value =
        readSigned 32 field (.enumeration id) value :=
      readSigned_relocate 32 field (.enumeration id) value
    simp only [ValueType.relocate, convertSimple, convertEnumeration, found,
      embeds.enumeration id enumeration found] at sameSigned ⊢
    cases value with
    | string name =>
      have sameNumber : (enumeration.relocate relocation).numberOf? name =
          enumeration.numberOf? name := rfl
      dsimp only
      rw [sameNumber]
      split
      · exact .ok _
      · exact .error fun impossible => impossible
    | number number =>
      dsimp only
      rw [sameSigned]
      exact (readSigned_same _ _ _ _).map _
    | _ => exact .error fun impossible => impossible

theorem zero_embeds (embeds : Pool.Embeds relocation pool grown) {type : ValueType}
    (known : pool.HasType type) :
    zero grown (type.relocate relocation) = zero pool type := by
  cases type with
  | scalar type => cases type <;> rfl
  | message id => rfl
  | enumeration id =>
    rcases known with ⟨enumeration, found⟩
    simp only [ValueType.relocate, zero, found, embeds.enumeration id enumeration found]
    rfl

/-! ## Settings -/

/-- A setting once places have changed. -/
def Setting.relocate (relocation : Relocation) (setting : Setting) : Setting :=
  ⟨setting.field.relocate relocation, setting.records⟩

/-- No records of some settings are refused for a defect of the pool. -/
def Possible (settings : List Setting) : Prop :=
  ∀ setting ∈ settings, ∀ refusal, setting.records = .error refusal → ¬ refusal.Dangling

/-- Two runs with the same settings, which the second one sees with other places. -/
inductive SameSettings (relocation : Relocation) : (first second : Encoded (List Setting)) → Prop
  | ok {settings : List Setting} (possible : Possible settings) :
      SameSettings relocation (.ok settings) (.ok (settings.map (·.relocate relocation)))
  | error {refusal : EncodeError} (possible : ¬ refusal.Dangling) :
      SameSettings relocation (.error refusal) (.error refusal)

theorem mem_insertByNumber {setting other : Setting} {settings : List Setting} :
    other ∈ insertByNumber setting settings ↔ other = setting ∨ other ∈ settings := by
  induction settings with
  | nil => exact List.mem_singleton.trans (or_iff_left List.not_mem_nil).symm
  | cons first rest inductionHypothesis =>
    unfold insertByNumber
    split
    · exact List.mem_cons
    · rw [List.mem_cons, inductionHypothesis, List.mem_cons, or_left_comm]

theorem mem_sortByNumber {setting : Setting} {settings : List Setting} :
    setting ∈ sortByNumber settings ↔ setting ∈ settings := by
  induction settings with
  | nil => exact Iff.rfl
  | cons first rest inductionHypothesis =>
    rw [sortByNumber, List.foldr_cons, mem_insertByNumber, List.mem_cons]
    exact or_congr Iff.rfl inductionHypothesis

theorem checkOneofs_same (message : Message) (settings : List Setting) (oneofs : List Oneof) :
    Same EncodeError.Dangling (checkOneofs message settings oneofs)
      (checkOneofs message settings oneofs) := by
  induction oneofs with
  | nil => exact .ok ()
  | cons oneof rest inductionHypothesis =>
    simp only [checkOneofs]
    split
    · exact .error id
    · exact inductionHypothesis

theorem joinRecords_same {settings : List Setting} (possible : Possible settings) :
    Same EncodeError.Dangling (joinRecords settings) (joinRecords settings) := by
  induction settings with
  | nil => exact .ok []
  | cons setting rest inductionHypothesis =>
    have later := inductionHypothesis fun other member =>
      possible other (List.mem_cons_of_mem _ member)
    simp only [joinRecords]
    split
    · exact .error (possible setting List.mem_cons_self _ ‹_›)
    · split
      · exact .error (later.possible _ ‹_›)
      · exact .ok _

theorem checkOneofs_relocate (message : Message) (settings : List Setting) (oneofs : List Oneof) :
    checkOneofs (message.relocate relocation) (settings.map (·.relocate relocation)) oneofs =
      checkOneofs message settings oneofs := by
  have sameMembers (oneof : Oneof) :
      setMembers (message.relocate relocation) (settings.map (·.relocate relocation)) oneof =
        (setMembers message settings oneof).map (·.relocate relocation) := by
    simp only [setMembers, message.membersOf_relocate, List.filter_map, List.any_map]
    rfl
  induction oneofs with
  | nil => rfl
  | cons oneof rest inductionHypothesis =>
    simp only [checkOneofs, sameMembers, inductionHypothesis, List.length_map, List.map_map]
    rfl

theorem sortByNumber_relocate (settings : List Setting) :
    sortByNumber (settings.map (·.relocate relocation)) =
      (sortByNumber settings).map (·.relocate relocation) := by
  have inserted (setting : Setting) (others : List Setting) :
      insertByNumber (setting.relocate relocation) (others.map (·.relocate relocation)) =
        (insertByNumber setting others).map (·.relocate relocation) := by
    induction others with
    | nil => rfl
    | cons first rest inductionHypothesis =>
      simp only [List.map_cons, insertByNumber, inductionHypothesis, apply_ite (List.map _)]
      rfl
  induction settings with
  | nil => rfl
  | cons setting rest inductionHypothesis =>
    simp only [sortByNumber, List.map_cons, List.foldr_cons] at inductionHypothesis ⊢
    rw [inductionHypothesis, inserted]

theorem joinRecords_relocate (settings : List Setting) :
    joinRecords (settings.map (·.relocate relocation)) = joinRecords settings := by
  induction settings with
  | nil => rfl
  | cons setting rest inductionHypothesis =>
    simp only [List.map_cons, joinRecords, inductionHypothesis]
    rfl

theorem assemblePayload_same (message : Message) {settings : List Setting}
    (possible : Possible settings) :
    Same EncodeError.Dangling (assemblePayload message settings)
      (assemblePayload (message.relocate relocation) (settings.map (·.relocate relocation))) := by
  have oneofs : (message.relocate relocation).oneofs = message.oneofs := rfl
  rw [assemblePayload, assemblePayload, oneofs, checkOneofs_relocate, sortByNumber_relocate,
    joinRecords_relocate]
  exact (checkOneofs_same message settings message.oneofs).bind fun _ _ =>
    joinRecords_same fun setting member => possible setting (mem_sortByNumber.mp member)

theorem fieldRecords_same {field : Field} {single single' : ValueType → Encoded Wire.Value}
    {elements elements' : ValueType → Encoded (List Wire.Value)}
    {entries entries' : MessageId → Encoded (List Bytes)}
    (sameSingle : ∀ type, field.type = type →
      Same EncodeError.Dangling (single type) (single' (type.relocate relocation)))
    (sameElements : ∀ type, field.type = type →
      Same EncodeError.Dangling (elements type) (elements' (type.relocate relocation)))
    (sameEntries : ∀ id, field.shape = .map id →
      Same EncodeError.Dangling (entries id) (entries' (relocation.message id))) :
    Same EncodeError.Dangling (fieldRecords field single elements entries)
      (fieldRecords (field.relocate relocation) single' elements' entries') := by
  unfold Field.type at sameSingle sameElements
  unfold fieldRecords
  rw [Field.shape_relocate]
  generalize field.shape = shape at sameSingle sameElements sameEntries ⊢
  cases shape with
  | singular type explicit =>
    have sameRecord (converted : Encoded Wire.Value) :
        singleRecord (field.relocate relocation) converted = singleRecord field converted := by
      simp only [singleRecord, Field.hasPresence_relocate, Field.number_relocate]
    simp only [Shape.relocate, sameRecord]
    exact (sameSingle type rfl).map _
  | repeated type packed => exact (sameElements type rfl).map _
  | map id => exact (sameEntries id rfl).map _

/-- A field that is found by name is one of the message. -/
theorem mem_of_fieldByName? {message : Message} {name : String} {field : Field}
    (found : message.fieldByName? name = some field) : field ∈ message.fields := by
  rcases Option.or_eq_some_iff.mp found with schema | ⟨_, json⟩
  · rcases Option.bind_eq_some_iff.mp schema with ⟨position, _, there⟩
    exact List.mem_of_getElem? there
  · exact List.mem_of_find?_eq_some json

/-! ## Documents -/

mutual

theorem convert_same (embeds : Pool.Embeds relocation pool grown) (poolWellFormed : pool.WellFormed)
    (field : String) {type : ValueType} (known : pool.HasType type) :
    (value : Json.Value) → Same EncodeError.Dangling (convert pool field type value)
      (convert grown field (type.relocate relocation) value)
  | .object members => by
    cases type with
    | scalar type => exact convertSimple_same embeds field known (.object members)
    | enumeration id => exact convertSimple_same embeds field known (.object members)
    | message id =>
      rcases known with ⟨message, found⟩
      have set := settings_same embeds poolWellFormed
        (poolWellFormed.messages message (List.mem_of_getElem? found)) [] members
      simp only [ValueType.relocate, convert, found, embeds.message id message found]
      generalize settings pool message [] members = first at set ⊢
      generalize settings grown (message.relocate relocation) [] members = second at set ⊢
      cases set with
      | ok possible => exact (assemblePayload_same message possible).map _
      | error possible => exact .error possible
  | .null => convertSimple_same embeds field known _
  | .bool _ => convertSimple_same embeds field known _
  | .number _ => convertSimple_same embeds field known _
  | .string _ => convertSimple_same embeds field known _
  | .array _ => convertSimple_same embeds field known _

theorem convertElements_same (embeds : Pool.Embeds relocation pool grown)
    (poolWellFormed : pool.WellFormed) (field : String) {type : ValueType}
    (known : pool.HasType type) :
    (value : Json.Value) → Same EncodeError.Dangling (convertElements pool field type value)
      (convertElements grown field (type.relocate relocation) value)
  | .array items => convertItems_same embeds poolWellFormed field known items
  | .null => .error id
  | .bool _ => .error id
  | .number _ => .error id
  | .string _ => .error id
  | .object _ => .error id

theorem convertItems_same (embeds : Pool.Embeds relocation pool grown)
    (poolWellFormed : pool.WellFormed) (field : String) {type : ValueType}
    (known : pool.HasType type) :
    (items : List Json.Value) → Same EncodeError.Dangling (convertItems pool field type items)
      (convertItems grown field (type.relocate relocation) items)
  | [] => .ok []
  | item :: rest => by
    have one := convert_same embeds poolWellFormed field known item
    have others := convertItems_same embeds poolWellFormed field known rest
    have first : Same EncodeError.Dangling
        (if item.isNull then mismatch field type.keyword item else convert pool field type item)
        (if item.isNull then mismatch field type.keyword item
          else convert grown field (type.relocate relocation) item) := by
      split
      · exact .error id
      · exact one
    simp only [convertItems, ValueType.keyword_relocate]
    rcases first.cases with ⟨value, left, right⟩ | ⟨refusal, left, right, possible⟩
    · rw [left, right]
      rcases others.cases with ⟨values, left, right⟩ | ⟨refusal, left, right, possible⟩
      · rw [left, right]
        exact .ok _
      · rw [left, right]
        exact .error possible
    · rw [left, right]
      exact .error possible

theorem convertMap_same (embeds : Pool.Embeds relocation pool grown)
    (poolWellFormed : pool.WellFormed) (field : String) {id : MessageId}
    (isEntry : ∃ entry, pool.message? id = some entry ∧ entry.IsEntry) :
    (value : Json.Value) → Same EncodeError.Dangling (convertMap pool field id value)
      (convertMap grown field (relocation.message id) value)
  | .object entries => by
    rcases isEntry with ⟨entry, found, isEntry⟩
    rcases isEntry.2 with ⟨key, type, _, fields⟩
    have types := (poolWellFormed.messages entry (List.mem_of_getElem? found)).types
    rw [fields] at types
    have relocated : (entry.relocate relocation).fields =
        [.entryKey key, .entryValue (type.relocate relocation)] := by
      rw [Message.fields_relocate, fields]
      rfl
    simp only [convertMap, found, embeds.message id entry found, fields, relocated]
    exact convertEntries_same embeds poolWellFormed (types _ List.mem_cons_self)
      (types _ (List.mem_cons_of_mem _ List.mem_cons_self)) entries
  | .null => .error fun impossible => impossible
  | .bool _ => .error fun impossible => impossible
  | .number _ => .error fun impossible => impossible
  | .string _ => .error fun impossible => impossible
  | .array _ => .error fun impossible => impossible

theorem convertEntries_same (embeds : Pool.Embeds relocation pool grown)
    (poolWellFormed : pool.WellFormed) {key value : Field} (keyKnown : pool.HasType key.type)
    (valueKnown : pool.HasType value.type) :
    (entries : List (String × Json.Value)) →
      Same EncodeError.Dangling (convertEntries pool key value entries)
        (convertEntries grown (key.relocate relocation) (value.relocate relocation) entries)
  | [] => .ok []
  | (name, item) :: rest => by
    have keySame : Same EncodeError.Dangling (convertKey pool key name)
        (convertKey grown (key.relocate relocation) name) := by
      rw [convertKey, convertKey, Field.type_relocate, keyValue_relocate]
      exact convertSimple_same embeds key.name keyKnown _
    have one := convert_same embeds poolWellFormed value.name valueKnown item
    have others := convertEntries_same embeds poolWellFormed keyKnown valueKnown rest
    have valueSame : Same EncodeError.Dangling
        (if item.isNull then .ok (zero pool value.type)
          else convert pool value.name value.type item)
        (if item.isNull then .ok (zero grown (value.type.relocate relocation))
          else convert grown value.name (value.type.relocate relocation) item) := by
      split
      · rw [zero_embeds embeds valueKnown]
        exact .ok _
      · exact one
    simp only [convertEntries, Field.name_relocate, Field.type_relocate]
    rcases keySame.cases with ⟨first, left, right⟩ | ⟨refusal, left, right, possible⟩
    · rw [left, right]
      rcases valueSame.cases with ⟨second, left, right⟩ | ⟨refusal, left, right, possible⟩
      · rw [left, right]
        rcases others.cases with ⟨contents, left, right⟩ | ⟨refusal, left, right, possible⟩
        · rw [left, right]
          exact .ok _
        · rw [left, right]
          exact .error possible
      · rw [left, right]
        exact .error possible
    · rw [left, right]
      exact .error possible

theorem settings_same (embeds : Pool.Embeds relocation pool grown)
    (poolWellFormed : pool.WellFormed) {message : Message} (wellFormed : message.WellFormed pool)
    (earlier : List Nat) :
    (members : List (String × Json.Value)) →
      SameSettings relocation (settings pool message earlier members)
        (settings grown (message.relocate relocation) earlier members)
  | [] => .ok fun _ member => nomatch member
  | (name, value) :: rest => by
    simp only [settings, message.fieldByName?_relocate]
    cases found : message.fieldByName? name with
    | none => exact .error id
    | some field =>
      have member := mem_of_fieldByName? found
      have known := wellFormed.types field member
      have entries := wellFormed.entries field member
      have records : Same EncodeError.Dangling
          (fieldRecords field (fun type => convert pool field.name type value)
            (fun type => convertElements pool field.name type value)
            fun entry => convertMap pool field.name entry value)
          (fieldRecords (field.relocate relocation)
            (fun type => convert grown field.name type value)
            (fun type => convertElements grown field.name type value)
            fun entry => convertMap grown field.name entry value) :=
        fieldRecords_same
          (fun type same => convert_same embeds poolWellFormed field.name (same ▸ known) value)
          (fun type same =>
            convertElements_same embeds poolWellFormed field.name (same ▸ known) value)
          fun id isMap => convertMap_same embeds poolWellFormed field.name (entries id isMap) value
      have others := settings_same embeds poolWellFormed wellFormed (field.number :: earlier) rest
      simp only [Option.map_some, Field.name_relocate]
      split
      · exact settings_same embeds poolWellFormed wellFormed earlier rest
      · by_cases again : field.number ∈ earlier
        · have relocatedAgain : (field.relocate relocation).number ∈ earlier := again
          rw [if_pos again, if_pos relocatedAgain]
          exact .error id
        · have relocatedNew : (field.relocate relocation).number ∉ earlier := again
          rw [if_neg again, if_neg relocatedNew, Field.number_relocate, records.same]
          generalize settings pool message (field.number :: earlier) rest = first at others ⊢
          generalize settings grown (message.relocate relocation) (field.number :: earlier) rest =
            second at others ⊢
          cases others with
          | error possible => exact .error possible
          | ok possible =>
            refine .ok fun setting member => ?_
            rcases List.mem_cons.mp member with first | later
            · exact first ▸ records.possible
            · exact possible setting later

end

end Values
end SchemaRecords.Payload
