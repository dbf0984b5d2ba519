import SchemaRecords.Proofs.Payload.FoldedLists
import SchemaRecords.Proofs.Payload.HeldMessages
import SchemaRecords.Proofs.Payload.MessageLevels
import SchemaRecords.Proofs.Schema.ListedMaps

/-!
# Entries of maps and elements of lists

A schema and a variant of it that lists some of its maps read the same payload with a decoder each.
An entry is read twice then: as an entry by the one, and by the other as an entry of the same map,
or as a message with a key and a value that a list has in its place.

As a message it means the same with one exception.  All contents of the value are joined there,
while of the messages in an entry the last one is taken alone, so an entry must not give its message
more than once.  A missing key is the zero of its type on both sides.  A missing value is shown for
an entry and not for a message, so the fold fills it in.
-/

namespace SchemaRecords.Payload

open SchemaRecords.Json SchemaRecords.Schema
open Outcome (Follows)

/-! ## Parts that mean one thing -/

section Parts

variable {pool : Pool} {options : Options}

/-- In every message that can be reached, each field is shown under a key of its own. -/
def OwnKeys (pool : Pool) (options : Options) (root : Message) : Prop :=
  ∀ message, pool.Reaches root message → ∀ field ∈ message.fields, KeyIsOwn options message field

/-- A part whose fields have keys of their own and whose entries give each message once. -/
structure Unambiguous (pool : Pool) (options : Options) (part : Message × Bytes) : Prop where
  own : OwnKeys pool options part.1
  once : ValuesOnce pool part

theorem OwnKeys.of_reaches {root message : Message} (own : OwnKeys pool options root)
    (reached : pool.Reaches root message) : OwnKeys pool options message :=
  fun next further => own next (reached.trans further)

/-- A field that is looked up under its own key is found. -/
theorem find?_key {message : Message} (indexed : message.Indexed) {field : Field}
    (member : field ∈ message.fields) (own : KeyIsOwn options message field) :
    message.fields.find? (fun other => options.key other = options.key field) = some field := by
  cases found : message.fields.find? fun other => options.key other = options.key field with
  | none => exact absurd (decide_eq_true rfl) (List.find?_eq_none.mp found field member)
  | some other =>
    have sameKey := List.find?_some found
    rw [decide_eq_true_iff] at sameKey
    rw [own.eq_of_key indexed member (List.mem_of_find?_eq_some found) sameKey]

namespace Unambiguous

theorem of_holds {part inner : Message × Bytes} (clear : Unambiguous pool options part)
    (holds : Holds pool part inner) : Unambiguous pool options inner where
  own := clear.own.of_reaches holds.reaches
  once := fun entry content further => clear.once entry content (.head holds further)

theorem of_nil {message : Message} (own : OwnKeys pool options message) :
    Unambiguous pool options (message, []) where
  own := own
  once := by
    refine .of_parts (fun _ => ?_) fun inner holds => absurd holds (not_holds_nil _ _)
    rw [contentsNumbered, valuesNumbered, recordsNumbered, Wire.Record.split.eq_def]
    exact Nat.zero_le 1

end Unambiguous

end Parts

/-! ## Values -/

/-- A value that another one, of the variant, is folded to. -/
def FoldOf (pool : Pool) (options : Options) (shape : Shape) (value listed : Json.Value) : Prop :=
  value = foldValue pool options shape listed

/-- Whatever the first decoder makes of a message, the second makes something of it in the variant
that is folded to the same. -/
def Folds (relocation : Relocation) (pool variant : Pool) (options : Options)
    (first second : Decoder) : Prop :=
  ∀ id message other, pool.message? id = some message → message.isMapEntry = false →
    variant.message? (relocation.message id) = some other → ∀ payload,
      Unambiguous pool options (message, payload) →
        Follows (FoldOf pool options (.singular (.message id) false)) (first message payload)
          (second other payload)

section Sides

variable {relocation : Relocation} {pool variant : Pool} {options : Options}
  {message other : Message} {first second firstEntry secondEntry : Decoder}

theorem Folds.of_refuse (decoder : Decoder) :
    Folds relocation pool variant options refuse decoder :=
  fun _ _ _ _ _ _ _ _ => .error _

theorem Folds.follow (folds : Folds relocation pool variant options first second)
    (wellFormed : pool.WellFormed) (listed : pool.Listed relocation variant) {id : MessageId}
    {next : Message} (found : pool.message? id = some next) (notEntry : next.isMapEntry = false)
    {payload : Bytes} (clear : Unambiguous pool options (next, payload)) :
    Follows (FoldOf pool options (.singular (.message id) false)) (first.follow pool id payload)
      (second.follow variant (relocation.message id) payload) := by
  rcases listed.exists_message wellFormed found with ⟨otherNext, otherFound, _⟩
  simp only [Decoder.follow, found, otherFound]
  exact folds id next otherNext found notEntry otherFound payload clear

theorem foldOf_iff_eq {type : ValueType} (notMessage : type.isMessage = false) {explicit : Bool}
    {value listed : Json.Value} :
    FoldOf pool options (.singular type explicit) value listed ↔ value = listed := by
  rw [FoldOf, foldValue_of_notMessage notMessage]

/-- A value without messages is read in the variant too, whatever the message is called there. -/
theorem readValue?_listed (listed : pool.Listed relocation variant) {type : ValueType}
    (known : pool.HasType type) (notMessage : type.isMessage = false)
    (name otherName field : String) (wire : Wire.Value) :
    Option.Rel (Follows Eq) (readValue? pool first name field type wire)
      (readValue? variant second otherName field (type.relocate relocation) wire) := by
  have packable : Option.Rel (Follows Eq)
      ((renderPackable? pool type wire).map (Except.ok (ε := DecodeError)))
      ((renderPackable? variant (type.relocate relocation) wire).map .ok) := by
    rw [renderPackable?_embeds listed.enumerations known]
    exact Decoder.Within.rel_refl _
  cases type with
  | message id => cases notMessage
  | enumeration id => cases wire <;> exact packable
  | scalar scalar =>
    cases scalar with
    | string =>
      cases wire with
      | delimited content =>
        simp only [ValueType.relocate, readValue?]
        split
        · exact .some (.refl _)
        · exact .some (.error _)
      | _ => exact packable
    | bytes =>
      cases wire with
      | delimited content => exact .some (.refl _)
      | _ => exact packable
    | _ => cases wire <;> exact packable

theorem Folds.readValue? (folds : Folds relocation pool variant options first second)
    (wellFormed : pool.WellFormed) (listed : pool.Listed relocation variant) {type : ValueType}
    (known : pool.Nameable type) (name otherName field : String) {wire : Wire.Value}
    (clear : ∀ id next content, type = .message id → pool.message? id = some next →
      wire = .delimited content → Unambiguous pool options (next, content)) :
    Option.Rel (Follows (FoldOf pool options (.singular type false)))
      (readValue? pool first name field type wire)
      (readValue? variant second otherName field (type.relocate relocation) wire) := by
  cases notMessage : type.isMessage with
  | false =>
    refine optionRel_imp
      (readValue?_listed listed known.hasType notMessage name otherName field wire)
      fun _ _ follows => follows.imp fun _ _ same => (foldOf_iff_eq notMessage).mpr same
  | true =>
    cases type with
    | scalar scalar => cases notMessage
    | enumeration id => cases notMessage
    | message id =>
      rcases known with ⟨next, found, notEntry⟩
      cases wire with
      | delimited content =>
        exact .some (inField_follows (folds.follow wellFormed listed found notEntry
          (clear id next content rfl found rfl)) field)
      | varint word => exact .none
      | fixed64 word => exact .none
      | fixed32 word => exact .none

/-! ## Entries of kept maps -/

/-- A part of an entry, and one that it is folded from. -/
inductive EntryPart.FoldOf (pool : Pool) (options : Options) (type : ValueType) :
    EntryPart → EntryPart → Prop
  | key (value : Json.Value) : FoldOf pool options type (.key value) (.key value)
  | value {value listed : Json.Value}
      (fold : Payload.FoldOf pool options (.singular type false) value listed) :
      FoldOf pool options type (.value value) (.value listed)

/-- An entry, and one of the same key with a value that its own is folded from. -/
structure MemberFold (pool : Pool) (options : Options) (type : ValueType)
    (member listed : String × Json.Value) : Prop where
  key : member.1 = listed.1
  value : FoldOf pool options (.singular type false) member.2 listed.2

theorem keysOf_foldOf {type : ValueType} {parts otherParts : List EntryPart}
    (each : List.Forall₂ (EntryPart.FoldOf pool options type) parts otherParts) :
    keysOf parts = keysOf otherParts := by
  induction each with
  | nil => rfl
  | cons here _ inductionHypothesis =>
    simp only [keysOf] at inductionHypothesis ⊢
    cases here <;> simp only [List.filterMap_cons, inductionHypothesis]

theorem entryValuesOf_foldOf {type : ValueType} {parts otherParts : List EntryPart}
    (each : List.Forall₂ (EntryPart.FoldOf pool options type) parts otherParts) :
    List.Forall₂ (FoldOf pool options (.singular type false)) (entryValuesOf parts)
      (entryValuesOf otherParts) := by
  induction each with
  | nil => exact .nil
  | cons here _ inductionHypothesis =>
    cases here with
    | key value => exact inductionHypothesis
    | value fold => exact .cons fold inductionHypothesis

section Entries

variable {entry : Message} {key : Scalar} {type : ValueType} {payload : Bytes}

/-- The message in the value of an entry means one thing if the entry does. -/
theorem Unambiguous.of_value (clear : Unambiguous pool options (entry, payload))
    (isEntry : entry.isMapEntry = true) (fields : entry.fields = [.entryKey key, .entryValue type])
    {record : Wire.Record} (inside : record ∈ (Wire.Record.split payload).1)
    (number : record.number = 2) {id : MessageId} {next : Message} {content : Bytes}
    (isMessage : type = .message id) (found : pool.message? id = some next)
    (isValue : record.value = some (.delimited content)) :
    Unambiguous pool options (next, content) := by
  subst isMessage
  exact clear.of_holds (.value isEntry fields found (number ▸ mem_contentsNumbered inside isValue))

theorem hasType_key (pool : Pool) (key : Scalar) : pool.HasType (.scalar key) := trivial

theorem Folds.readEntryPart (folds : Folds relocation pool variant options first second)
    (wellFormed : pool.WellFormed) (listed : pool.Listed relocation variant)
    (clear : Unambiguous pool options (entry, payload)) (isEntry : entry.isMapEntry = true)
    (fields : entry.fields = [.entryKey key, .entryValue type]) (known : pool.Nameable type)
    (name otherName : String) {record : Wire.Record}
    (inside : record ∈ (Wire.Record.split payload).1) :
    Option.Rel (Follows (EntryPart.FoldOf pool options type))
      (readEntryPart pool first name (.entryKey key) (.entryValue type) record)
      (readEntryPart variant second otherName (.entryKey key)
        (.entryValue (type.relocate relocation)) record) := by
  unfold Payload.readEntryPart
  cases isValue : record.value with
  | none => exact .none
  | some wire =>
    dsimp only
    split
    · exact optionRel_map
        (readValue?_listed listed (hasType_key pool key) rfl name otherName _ wire)
        fun _ _ follows => follows.map fun _ _ same => same ▸ .key _
    · split
      · rename_i number
        refine optionRel_map (folds.readValue? wellFormed listed known name otherName _ ?_)
          fun _ _ follows => follows.map fun _ _ fold => .value fold
        rintro id next content isMessage found rfl
        exact clear.of_value isEntry fields inside number isMessage found isValue
      · exact .none

theorem Folds.decodeMissing (folds : Folds relocation pool variant options first second)
    (wellFormed : pool.WellFormed) (listed : pool.Listed relocation variant)
    (known : pool.Nameable type) (own : ∀ id next, type = .message id →
      pool.message? id = some next → OwnKeys pool options next) :
    Follows (FoldOf pool options (.singular type false)) (decodeMissing pool first type)
      (decodeMissing variant second (type.relocate relocation)) := by
  have default := renderDefault_embeds listed.enumerations known.hasType
  cases type with
  | scalar scalar => exact .ok ((foldOf_iff_eq rfl).mpr default.symm)
  | enumeration id => exact .ok ((foldOf_iff_eq rfl).mpr default.symm)
  | message id =>
    rcases known with ⟨next, found, notEntry⟩
    exact folds.follow wellFormed listed found notEntry (.of_nil (own id next rfl found))

/-- The messages in an entry have keys of their own if those around it have. -/
theorem ownKeys_of_entry (own : OwnKeys pool options entry)
    (fields : entry.fields = [.entryKey key, .entryValue type]) (id : MessageId) (next : Message)
    (isMessage : type = .message id) (found : pool.message? id = some next) :
    OwnKeys pool options next := by
  have member : Field.entryValue type ∈ entry.fields := by
    rw [fields]
    exact List.mem_cons_of_mem _ List.mem_cons_self
  exact own.of_reaches (.step .refl member isMessage found)

theorem Folds.decodeEntry (folds : Folds relocation pool variant options first second)
    (wellFormed : pool.WellFormed) (listed : pool.Listed relocation variant)
    (clear : Unambiguous pool options (entry, payload)) (isEntry : entry.isMapEntry = true)
    (fields : entry.fields = [.entryKey key, .entryValue type]) (known : pool.Nameable type)
    (otherFields : other.fields = [.entryKey key, .entryValue (type.relocate relocation)]) :
    Follows (MemberFold pool options type) (decodeEntry pool first entry payload)
      (decodeEntry variant second other payload) := by
  simp only [Payload.decodeEntry, fields, otherFields]
  refine (readPayload_follows (fun record inside => folds.readEntryPart wellFormed listed clear
    isEntry fields known entry.fullName other.fullName inside) _ _).bind
      fun parts otherParts each => ?_
  have default : renderDefault variant (.scalar key) = renderDefault pool (.scalar key) :=
    renderDefault_embeds listed.enumerations (hasType_key pool key)
  have sameKey : keyText ((keysOf parts).getLast?.getD (renderDefault pool (.scalar key))) =
      keyText ((keysOf otherParts).getLast?.getD (renderDefault variant (.scalar key))) := by
    rw [keysOf_foldOf each, default]
  have last := getLast?_related (entryValuesOf_foldOf each)
  generalize (entryValuesOf parts).getLast? = one at *
  generalize (entryValuesOf otherParts).getLast? = another at *
  cases last with
  | none =>
    exact (folds.decodeMissing wellFormed listed known
      (ownKeys_of_entry clear.own fields)).bind fun _ _ fold => .ok ⟨sameKey, fold⟩
  | some fold => exact .ok ⟨sameKey, fold⟩

end Entries

/-! ## Entries of listed maps -/

/-- A part of an entry, and the occurrence that its record is in a message with the same key and
value. -/
inductive EntryPart.Listed (pool : Pool) (decoder : Decoder) (key : Scalar)
    (type otherType : ValueType) : EntryPart → Occurrence → Prop
  | key (value : Json.Value) :
      Listed pool decoder key type otherType (.key value) ⟨.entryKey key, .value value⟩
  | value (notMessage : type.isMessage = false) (value : Json.Value) :
      Listed pool decoder key type otherType (.value value) ⟨.entryValue otherType, .value value⟩
  | content {id : MessageId} (isMessage : type = .message id) {content : Bytes} {value : Json.Value}
      (decoded : decoder.follow pool id content = .ok value) :
      Listed pool decoder key type otherType (.value value)
        ⟨.entryValue otherType, .content content⟩

section Items

variable {entry : Message} {key : Scalar} {type otherType : ValueType} {payload : Bytes}
  {parts : List EntryPart} {occurrences : List Occurrence}

theorem valuesOf_key_listed
    (each : List.Forall₂ (EntryPart.Listed pool first key type otherType) parts occurrences) :
    valuesOf (contributionsTo (.entryKey key) occurrences) = keysOf parts := by
  rw [contributionsTo_of_alone rfl]
  induction each with
  | nil => rfl
  | cons here _ inductionHypothesis =>
    simp only [valuesOf, keysOf] at inductionHypothesis ⊢
    cases here <;>
      simpa [List.filter_cons, Field.entryKey, Field.entryValue] using inductionHypothesis

theorem valuesOf_value_listed (notMessage : type.isMessage = false)
    (each : List.Forall₂ (EntryPart.Listed pool first key type otherType) parts occurrences) :
    valuesOf (contributionsTo (.entryValue otherType) occurrences) = entryValuesOf parts := by
  rw [contributionsTo_of_alone rfl]
  induction each with
  | nil => rfl
  | cons here _ inductionHypothesis =>
    simp only [valuesOf, entryValuesOf] at inductionHypothesis ⊢
    cases here with
    | content isMessage => cases isMessage ▸ notMessage
    | _ => simpa [List.filter_cons, Field.entryKey, Field.entryValue] using inductionHypothesis

theorem contentsOf_value_listed {id : MessageId}
    (each : List.Forall₂ (EntryPart.Listed pool first key (.message id) otherType) parts
      occurrences) :
    List.Forall₂ (fun value content => first.follow pool id content = .ok value)
      (entryValuesOf parts)
      (contentsOf (contributionsTo (.entryValue otherType) occurrences)) := by
  rw [contributionsTo_of_alone rfl]
  induction each with
  | nil => exact .nil
  | cons here _ inductionHypothesis =>
    cases here with
    | key value =>
      rw [List.filter_cons_of_neg Bool.false_ne_true]
      exact inductionHypothesis
    | value notMessage => cases notMessage
    | content isMessage decoded =>
      cases isMessage
      rw [List.filter_cons_of_pos (by exact decide_eq_true rfl)]
      exact .cons decoded inductionHypothesis

/-- A simple value is given to its field in the variant as it is read here. -/
theorem contribution?_listed_simple (listed : pool.Listed relocation variant) {field : Field}
    {part : ValueType} {explicit : Bool} (shape : field.shape = .singular part explicit)
    (notMessage : part.isMessage = false) (known : pool.HasType part) (name : String)
    (wire : Wire.Value) :
    Option.Rel (Follows fun value contribution => contribution = .value value)
      (Payload.readValue? pool first name field.name part wire)
      (contribution? variant second secondEntry other (field.relocate relocation) wire) := by
  have otherShape : (field.relocate relocation).shape =
      .singular (part.relocate relocation) explicit :=
    Field.shape_relocate_of shape
  rw [contribution?_of_notMessage otherShape ((part.isMessage_relocate).trans notMessage),
    ← Option.map_id' (x := Payload.readValue? pool first name field.name part wire)]
  refine optionRel_map (readValue?_listed listed known notMessage name other.fullName _ wire)
    fun run otherRun follows => ?_
  intro value isValue
  rcases follows value isValue with ⟨_, isOther, rfl⟩
  exact ⟨.value value, Outcome.map_eq_ok_iff.mpr ⟨value, isOther, rfl⟩, rfl⟩

/-- A value of an entry is given to the second field of the message in its place. -/
theorem readValue?_listed_value (listed : pool.Listed relocation variant)
    (known : pool.HasType type) (name : String) (wire : Wire.Value) :
    Option.Rel (Follows (EntryPart.Listed pool first key type (type.relocate relocation)))
      ((Payload.readValue? pool first name "value" type wire).map (·.map .value))
      ((contribution? variant second secondEntry other (.entryValue (type.relocate relocation))
        wire).map (·.map (Occurrence.mk (.entryValue (type.relocate relocation))))) := by
  cases notMessage : type.isMessage with
  | false =>
    have shape : (Field.entryValue type).shape = .singular type false := rfl
    refine optionRel_map (contribution?_listed_simple listed shape notMessage known name wire)
      fun _ _ follows => follows.map ?_
    rintro value _ rfl
    exact .value notMessage value
  | true =>
    cases type with
    | scalar scalar => cases notMessage
    | enumeration id => cases notMessage
    | message id =>
      cases wire with
      | delimited content =>
        refine .some fun part isPart => ?_
        rcases Outcome.map_eq_ok_iff.mp isPart with ⟨value, isShown, rfl⟩
        exact ⟨_, rfl, .content rfl (eq_ok_of_inField isShown)⟩
      | varint word => exact .none
      | fixed64 word => exact .none
      | fixed32 word => exact .none

/-- A message with a key and a value has no other fields. -/
theorem fieldByNumber?_of_entryFields (indexed : other.Indexed)
    (fields : other.fields = [.entryKey key, .entryValue otherType]) {number : Nat}
    (notKey : number ≠ 1) (notValue : number ≠ 2) : other.fieldByNumber? number = none := by
  cases found : other.fieldByNumber? number with
  | none => rfl
  | some field =>
    have member := mem_of_fieldByNumber? found
    have isNumber := indexed.number_of_fieldByNumber? found
    rw [fields, List.mem_cons, List.mem_singleton] at member
    rcases member with rfl | rfl
    · exact absurd isNumber.symm notKey
    · exact absurd isNumber.symm notValue

/-- What an entry makes of a record is what a message with the same key and value makes of it. -/
theorem readEntryPart_listed (listed : pool.Listed relocation variant) (indexed : other.Indexed)
    (known : pool.HasType type)
    (fields : other.fields = [.entryKey key, .entryValue (type.relocate relocation)])
    (name : String) (record : Wire.Record) :
    Option.Rel (Follows (EntryPart.Listed pool first key type (type.relocate relocation)))
      (readEntryPart pool first name (.entryKey key) (.entryValue type) record)
      (occurrence? variant second secondEntry other record) := by
  have keyMember : Field.entryKey key ∈ other.fields := by
    rw [fields]
    exact List.mem_cons_self
  have valueMember : Field.entryValue (type.relocate relocation) ∈ other.fields := by
    rw [fields]
    exact List.mem_cons_of_mem _ List.mem_cons_self
  have keyShape : (Field.entryKey key).shape = .singular (.scalar key) false := rfl
  unfold Payload.readEntryPart
  cases isValue : record.value with
  | none =>
    simp only [Payload.occurrence?, isValue]
    exact .none
  | some wire =>
    dsimp only
    split
    · rename_i number
      rw [occurrence?_own indexed keyMember number, isValue, Option.bind_some]
      refine optionRel_map
        (contribution?_listed_simple listed keyShape rfl (hasType_key pool key) name wire)
        fun _ _ follows => follows.map ?_
      rintro value _ rfl
      exact .key value
    · split
      · rename_i number
        rw [occurrence?_own indexed valueMember number, isValue, Option.bind_some]
        exact readValue?_listed_value listed known name wire
      · rename_i notKey notValue
        simp only [Payload.occurrence?, isValue,
          fieldByNumber?_of_entryFields indexed fields notKey notValue]
        exact .none

/-- What a field shows of a simple value, or its default if it shows none, is its last value. -/
theorem exists_shown_simple {field : Field} {explicit : Bool}
    (shape : field.shape = .singular type explicit) (notMessage : type.isMessage = false)
    (decoder : Decoder) (contributions : List Contribution) :
    ∃ shown, fieldValue pool options decoder field contributions = .ok shown ∧
      shown.getD (renderDefault pool type) =
        (valuesOf contributions).getLast?.getD (renderDefault pool type) := by
  rw [fieldValue_of_notMessage shape notMessage]
  cases (valuesOf contributions).getLast? with
  | none =>
    dsimp only
    split
    · exact ⟨_, rfl, rfl⟩
    · exact ⟨_, rfl, rfl⟩
  | some value =>
    dsimp only
    split
    · rename_i hidden
      simp only [Bool.and_eq_true] at hidden
      exact ⟨none, rfl, (eq_of_isDefault hidden.2).symm⟩
    · exact ⟨some value, rfl, rfl⟩

theorem decodeMissing_of_notMessage (notMessage : type.isMessage = false) (decoder : Decoder) :
    decodeMissing pool decoder type = .ok (renderDefault pool type) := by
  cases type with
  | message id => cases notMessage
  | scalar scalar => rfl
  | enumeration id => rfl

theorem missingValue_of_notMessage (notMessage : type.isMessage = false) :
    missingValue pool options type = renderDefault pool type := by
  rw [missingValue, decodeMissing_of_notMessage notMessage]
  rfl

/-- A missing value that some decoder makes is the one that is shown. -/
theorem missingValue_of_within (deep : first.Within (decodeWithin pool options nestingLimit))
    {value : Json.Value} (missing : decodeMissing pool first type = .ok value) :
    missingValue pool options type = value := by
  rcases deep.decodeMissing type value missing with ⟨_, isMissing, rfl⟩
  rw [missingValue, isMissing]
  rfl

/-- The value of an entry, and what the message in its place shows that the value is folded from. -/
def EntryShown (pool : Pool) (options : Options) (type : ValueType) (value : Json.Value)
    (shown : Option Json.Value) : Prop :=
  (shown.map (foldValue pool options (.singular type false))).getD
    (missingValue pool options type) = value

theorem exists_shown_simpleValue (listed : pool.Listed relocation variant)
    (notMessage : type.isMessage = false) (known : pool.HasType type)
    (each : List.Forall₂ (EntryPart.Listed pool first key type (type.relocate relocation)) parts
      occurrences) {value : Json.Value}
    (given : (entryValuesOf parts).getLast?.elim (Payload.decodeMissing pool first type) .ok =
      .ok value) :
    ∃ shown, fieldValue variant options second (.entryValue (type.relocate relocation))
        (contributionsTo (.entryValue (type.relocate relocation)) occurrences) = .ok shown ∧
      EntryShown pool options type value shown := by
  have otherNotMessage : (type.relocate relocation).isMessage = false := by
    rw [ValueType.isMessage_relocate, notMessage]
  have shows : ∃ shown, fieldValue variant options second (.entryValue (type.relocate relocation))
      (contributionsTo (.entryValue (type.relocate relocation)) occurrences) = .ok shown ∧ _ = _ :=
    exists_shown_simple rfl otherNotMessage second _
  rcases shows with ⟨shown, isShown, last⟩
  rw [renderDefault_embeds listed.enumerations known, valuesOf_value_listed notMessage each] at last
  rw [decodeMissing_of_notMessage notMessage] at given
  refine ⟨shown, isShown, ?_⟩
  rw [EntryShown, funext (foldValue_of_notMessage notMessage false), Option.map_id',
    missingValue_of_notMessage notMessage, last]
  cases isLast : (entryValuesOf parts).getLast? with
  | none =>
    rw [isLast] at given
    exact Except.ok.inj given
  | some final =>
    rw [isLast] at given
    exact Except.ok.inj given

/-- At most one message is given, so the last one is also all of them. -/
theorem Folds.exists_shown_contents (folds : Folds relocation pool variant options first second)
    (wellFormed : pool.WellFormed) (listed : pool.Listed relocation variant)
    (deep : first.Within (decodeWithin pool options nestingLimit)) {id : MessageId} {next : Message}
    (found : pool.message? id = some next) (notEntry : next.isMapEntry = false) {field : Field}
    (shape : field.shape = .singular (.message (relocation.message id)) false)
    {contributions : List Contribution} (once : (contentsOf contributions).length ≤ 1)
    (clear : ∀ content ∈ contentsOf contributions, Unambiguous pool options (next, content))
    {values : List Json.Value}
    (decoded : List.Forall₂ (fun value content => first.follow pool id content = .ok value) values
      (contentsOf contributions)) {value : Json.Value}
    (given : values.getLast?.elim (Payload.decodeMissing pool first (.message id)) .ok =
      .ok value) :
    ∃ shown, fieldValue variant options second field contributions = .ok shown ∧
      EntryShown pool options (.message id) value shown := by
  rw [fieldValue_of_message shape]
  generalize contentsOf contributions = contents at *
  cases decoded with
  | nil => exact ⟨none, rfl, missingValue_of_within deep given⟩
  | cons here rest =>
    cases rest with
    | cons _ _ => exact absurd once (by simp)
    | nil =>
      cases given
      rcases folds.follow wellFormed listed found notEntry (clear _ List.mem_cons_self) _ here with
        ⟨listedValue, isListed, fold⟩
      refine ⟨some listedValue, ?_, fold.symm⟩
      simp only [List.flatten_cons, List.flatten_nil, List.append_nil, isListed]
      rfl

/-- The value of an entry, or what is shown if none is given, is folded from what the message with
the same key and value shows for it. -/
theorem Folds.exists_shown_value (folds : Folds relocation pool variant options first second)
    (wellFormed : pool.WellFormed) (listed : pool.Listed relocation variant)
    (deep : first.Within (decodeWithin pool options nestingLimit))
    (clear : Unambiguous pool options (entry, payload)) (isEntry : entry.isMapEntry = true)
    (fields : entry.fields = [.entryKey key, .entryValue type]) (known : pool.Nameable type)
    (indexed : other.Indexed)
    (otherFields : other.fields = [.entryKey key, .entryValue (type.relocate relocation)])
    (read : readPayload other.fullName (occurrence? variant second secondEntry other) payload =
      .ok occurrences)
    (each : List.Forall₂ (EntryPart.Listed pool first key type (type.relocate relocation)) parts
      occurrences) {value : Json.Value}
    (given : (entryValuesOf parts).getLast?.elim (Payload.decodeMissing pool first type) .ok =
      .ok value) :
    ∃ shown, fieldValue variant options second (.entryValue (type.relocate relocation))
        (contributionsTo (.entryValue (type.relocate relocation)) occurrences) = .ok shown ∧
      EntryShown pool options type value shown := by
  cases notMessage : type.isMessage with
  | false => exact exists_shown_simpleValue listed notMessage known.hasType each given
  | true =>
    cases type with
    | scalar scalar => cases notMessage
    | enumeration id => cases notMessage
    | message id =>
      rcases known with ⟨next, found, notEntry⟩
      have member :
          Field.entryValue ((ValueType.message id).relocate relocation) ∈ other.fields := by
        rw [otherFields]
        exact List.mem_cons_of_mem _ List.mem_cons_self
      have contents : contentsOf (contributionsTo
          (.entryValue ((ValueType.message id).relocate relocation)) occurrences) =
            contentsNumbered 2 payload :=
        (contentsOf_contributionsTo indexed member rfl read).trans
          (currentContents_of_alone rfl other payload)
      have once := clear.once entry payload .refl isEntry key id fields
      have decoded := contentsOf_value_listed each
      refine folds.exists_shown_contents wellFormed listed deep found notEntry rfl
        (contents ▸ once) (fun content there => ?_) decoded given
      exact clear.of_holds (.value isEntry fields found (contents ▸ there))

theorem key_entryKey (options : Options) (key : Scalar) : options.key (.entryKey key) = "key" := by
  unfold Options.key
  split <;> rfl

theorem key_entryValue (options : Options) (type : ValueType) :
    options.key (.entryValue type) = "value" := by
  unfold Options.key
  split <;> rfl

/-- The object of a message with the same key and value stands for an entry. -/
theorem memberOfItem_object {id : MessageId} (found : pool.message? id = some entry)
    (fields : entry.fields = [.entryKey key, .entryValue type]) (members : Json.Members) :
    memberOfItem pool options id
        (foldValue pool options (.singular (.message id) false) (.object members)) =
      (keyText ((members.lookup "key").getD (renderDefault pool (.scalar key))),
        ((members.lookup "value").map (foldValue pool options (.singular type false))).getD
          (missingValue pool options type)) := by
  have shapeOf (name : String) :
      memberShape? pool options (.singular (.message id) false) name =
        ([Field.entryKey key, Field.entryValue type].find? fun field =>
          options.key field = name).map (·.shape) := by
    rw [memberShape?, found, Option.bind_some, fields]
  have keyShape : memberShape? pool options (.singular (.message id) false) "key" =
      some (.singular (.scalar key) false) := by
    rw [shapeOf, List.find?_cons, key_entryKey]
    rfl
  have valueShape : memberShape? pool options (.singular (.message id) false) "value" =
      some (.singular type false) := by
    rw [shapeOf, List.find?_cons, List.find?_cons, key_entryKey, key_entryValue]
    rfl
  have both : (pool.message? id).map (·.fields) = some [.entryKey key, .entryValue type] := by
    rw [found, Option.map_some, fields]
  have unfolded : foldValue pool options (.singular (.scalar key) false) = fun value => value :=
    funext fun value => foldValue_of_notMessage rfl false value
  simp only [foldValue, memberOfItem, both, key_entryKey, key_entryValue]
  rw [lookup_foldMembers _ keyShape, lookup_foldMembers _ valueShape, unfolded, Option.map_id']
  rfl

/-- If a message with a key and a value shows something for both, it does so under their names. -/
theorem exists_object_of_shown (indexed : other.Indexed)
    (fields : other.fields = [.entryKey key, .entryValue otherType])
    (read : readPayload other.fullName (occurrence? variant second secondEntry other) payload =
      .ok occurrences) {keyShown valueShown : Option Json.Value}
    (keyIsShown : fieldValue variant options second (.entryKey key)
      (contributionsTo (.entryKey key) occurrences) = .ok keyShown)
    (valueIsShown : fieldValue variant options second (.entryValue otherType)
      (contributionsTo (.entryValue otherType) occurrences) = .ok valueShown) :
    ∃ members, decodeLevel variant options second secondEntry other payload =
        .ok (.object members) ∧
      members.lookup "key" = keyShown ∧ members.lookup "value" = valueShown := by
  have shows : ∃ members, assemble variant options second occurrences [] other.fields =
      .ok members := by
    apply exists_assemble_iff.mpr
    rw [fields]
    exact List.forall_mem_cons.mpr
      ⟨⟨_, keyIsShown⟩, List.forall_mem_singleton.mpr ⟨_, valueIsShown⟩⟩
  rcases shows with ⟨members, assembled⟩
  have different : options.key (.entryKey key) ≠ options.key (.entryValue otherType) := by
    rw [key_entryKey, key_entryValue]
    decide
  have keyOwn : ∀ field ∈ other.fields, options.key field = options.key (.entryKey key) →
      field = .entryKey key := by
    rw [fields]
    exact List.forall_mem_cons.mpr ⟨fun _ => rfl,
      List.forall_mem_singleton.mpr fun same => absurd same.symm different⟩
  have valueOwn : ∀ field ∈ other.fields, options.key field = options.key (.entryValue otherType) →
      field = .entryValue otherType := by
    rw [fields]
    exact List.forall_mem_cons.mpr ⟨fun same => absurd same different,
      List.forall_mem_singleton.mpr fun _ => rfl⟩
  have isKey := fieldValue_of_assemble indexed.nodup (fields ▸ List.mem_cons_self) keyOwn rfl
    assembled
  have isValue := fieldValue_of_assemble indexed.nodup
    (fields ▸ List.mem_cons_of_mem _ List.mem_cons_self) valueOwn rfl assembled
  rw [key_entryKey] at isKey
  rw [key_entryValue] at isValue
  refine ⟨members, ?_, Except.ok.inj (isKey.symm.trans keyIsShown),
    Except.ok.inj (isValue.symm.trans valueIsShown)⟩
  exact Outcome.bind_eq_ok_iff.mpr
    ⟨occurrences, read, Outcome.bind_eq_ok_iff.mpr ⟨members, assembled, rfl⟩⟩

/-- What is made of an entry is also made of it as an element of a list. -/
theorem Folds.decodeEntry_listed (folds : Folds relocation pool variant options first second)
    (wellFormed : pool.WellFormed) (listed : pool.Listed relocation variant)
    (deep : first.Within (decodeWithin pool options nestingLimit))
    (clear : Unambiguous pool options (entry, payload)) (isEntry : entry.isMapEntry = true)
    {id : MessageId} (found : pool.message? id = some entry)
    (fields : entry.fields = [.entryKey key, .entryValue type]) (known : pool.Nameable type)
    (otherIndexed : other.Indexed)
    (otherFields : other.fields = [.entryKey key, .entryValue (type.relocate relocation)]) :
    Follows (fun member item => member = memberOfItem pool options id
        (foldValue pool options (.singular (.message id) false) item))
      (Payload.decodeEntry pool first entry payload)
      (decodeLevel variant options second secondEntry other payload) := by
  intro member decoded
  simp only [Payload.decodeEntry, fields] at decoded
  rcases Outcome.bind_eq_ok_iff.mp decoded with ⟨parts, partsRead, rest⟩
  have last : ∃ value,
      (entryValuesOf parts).getLast?.elim (Payload.decodeMissing pool first type) .ok =
          .ok value ∧
        (keyText ((keysOf parts).getLast?.getD (renderDefault pool (.scalar key))), value) =
          member := by
    cases isLast : (entryValuesOf parts).getLast? <;> rw [isLast] at rest <;>
      rcases Outcome.bind_eq_ok_iff.mp rest with ⟨value, isValue, result⟩ <;>
        exact ⟨value, isValue, Except.ok.inj result⟩
  rcases last with ⟨value, given, rfl⟩
  have side : Follows
      (List.Forall₂ (EntryPart.Listed pool first key type (type.relocate relocation))) _
      (readPayload other.fullName (occurrence? variant second secondEntry other) payload) :=
    readPayload_follows (fun record _ => readEntryPart_listed listed otherIndexed known.hasType
      otherFields entry.fullName record) entry.fullName other.fullName
  rcases side parts partsRead with ⟨occurrences, read, each⟩
  rcases folds.exists_shown_value wellFormed listed deep clear isEntry fields known otherIndexed
    otherFields read each given with ⟨valueShown, valueIsShown, valueFolded⟩
  have default : renderDefault variant (.scalar key) = renderDefault pool (.scalar key) :=
    renderDefault_embeds listed.enumerations (hasType_key pool key)
  have keyShows : ∃ keyShown, fieldValue variant options second (.entryKey key)
      (contributionsTo (.entryKey key) occurrences) = .ok keyShown ∧ _ = _ :=
    exists_shown_simple rfl rfl second _
  rcases keyShows with ⟨keyShown, keyIsShown, keyLast⟩
  rw [default, valuesOf_key_listed each] at keyLast
  rcases exists_object_of_shown otherIndexed otherFields read keyIsShown valueIsShown with
    ⟨members, isObject, keyLookup, valueLookup⟩
  refine ⟨.object members, isObject, ?_⟩
  dsimp only
  rw [memberOfItem_object found fields, keyLookup, valueLookup, keyLast, valueFolded]

end Items

end Sides
end SchemaRecords.Payload

