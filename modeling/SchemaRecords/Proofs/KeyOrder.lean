import SchemaRecords.Proofs.Payload.ConvertedFields
import SchemaRecords.Proofs.Payload.RearrangedMembers
import SchemaRecords.Proofs.Schema.FieldKinds
import SchemaRecords.Proofs.Schema.GivenCharacters
import SchemaRecords.Proofs.Schema.LinkedUnits

/-!
# Payloads do not depend on the order of keys

The keys of a message object may come in any order, at every level of a document: either all
orders have the same payload or none has a payload.  In a payload the records of a message are
in the order of their field numbers, and so are the records of each message inside of it, the
entries of maps among them.

A payload of records is always a sequence of whole records.  The reader of records takes it apart
into just these as long as it has less than 2^32 bytes.
-/

namespace SchemaRecords
namespace Payload

open SchemaRecords.Schema

/-! ## Records in order -/

/-- A payload consists of records of the fields of a message, in the order of their numbers. -/
structure OrderedRecords (message : Message) (records : List (Nat × Wire.Value))
    (payload : Bytes) : Prop where
  whole : payload = Wire.Record.encodeAll records
  split : payload.length < 2 ^ 32 → Wire.Record.split payload =
    (records.map fun record => ⟨record.1, some record.2⟩, none)
  sorted : records.Pairwise fun first second => first.1 ≤ second.1
  known : ∀ record ∈ records, ∃ field, message.fieldByNumber? record.1 = some field

/-- The records of a message and of all messages inside of it are in order. -/
inductive InOrder (pool : Pool) : Message → Bytes → Prop
  | intro {message : Message} {payload : Bytes} {records : List (Nat × Wire.Value)}
      (ordered : OrderedRecords message records payload)
      (delimited : ∀ record ∈ records, ∀ field id, message.fieldByNumber? record.1 = some field →
        field.type = .message id → ∃ content, record.2 = .delimited content)
      (inner : ∀ record ∈ records, ∀ field id next content,
        message.fieldByNumber? record.1 = some field → field.type = .message id →
        pool.message? id = some next → record.2 = .delimited content →
        InOrder pool next content) : InOrder pool message payload

section Records

variable {pool : Pool} {message : Message}

theorem orderedRecords_encodeAll {records : List (Nat × Wire.Value)}
    (legal : ∀ record ∈ records, Wire.IsNumber record.1)
    (sorted : records.Pairwise fun first second => first.1 ≤ second.1)
    (known : ∀ record ∈ records, ∃ field, message.fieldByNumber? record.1 = some field) :
    OrderedRecords message records (Wire.Record.encodeAll records) := by
  refine ⟨rfl, fun short => Wire.Record.split_encodeAll legal fun record member => ?_, sorted, known⟩
  exact Wire.Value.fits_of_length
    (Nat.lt_of_le_of_lt (Wire.Record.length_encode_le member) short)

theorem orderedRecords_writtenFields (indexed : message.Indexed)
    (wires : Field → List Wire.Value) :
    OrderedRecords message (recordsByNumber message wires) (writtenFields message wires) := by
  refine orderedRecords_encodeAll (isNumber_of_mem indexed) ?_ ?_
  · have fields : (byNumber message.fields).Pairwise
        fun first second => first.number ≤ second.number := List.pairwise_insertionSort _ _
    refine List.pairwise_flatMap.mpr ⟨fun field _ => ?_, fields.imp ?_⟩
    · rw [recordsOf, List.pairwise_map]
      exact List.pairwise_of_forall fun _ _ => Nat.le_refl _
    · intro first second least record isFirst other isSecond
      rcases List.mem_map.mp isFirst with ⟨_, _, rfl⟩
      rcases List.mem_map.mp isSecond with ⟨_, _, rfl⟩
      exact least
  · intro record member
    rcases mem_recordsByNumber.mp member with ⟨field, there, wire, _, rfl⟩
    exact ⟨field, indexed.fieldByNumber?_of_mem there⟩

/-- The content of a record is shorter than the payload that the record is in. -/
theorem length_content_lt {records : List (Nat × Wire.Value)} {number : Nat} {content : Bytes}
    (member : (number, .delimited content) ∈ records) :
    content.length < (Wire.Record.encodeAll records).length := by
  have whole := Wire.Record.length_encode_le member
  have prefixed := List.length_pos_of_ne_nil (Wire.Varint.encode_ne_nil content.length)
  simp only [Wire.Value.encode, List.length_append] at whole
  omega

/-- The values of a field that holds messages are their payloads. -/
theorem exists_encodeMembers_of_convert {id : MessageId} {next : Message}
    (found : pool.message? id = some next) {name : String} {given : Json.Value} {wire : Wire.Value}
    (converted : convert pool name (.message id) given = .ok wire) :
    ∃ members content, wire = .delimited content ∧
      encodeMembers pool next members = .ok content := by
  cases given with
  | object members =>
    rw [convert_object found] at converted
    rcases Outcome.map_eq_ok_iff.mp converted with ⟨content, encoded, rfl⟩
    exact ⟨members, content, rfl, encoded⟩
  | _ => cases converted

end Records

/-! ## Payloads of documents -/

section Documents

variable {pool : Pool} {message : Message}

/-- The records of a message are in order if those of its message fields hold messages that are. -/
theorem InOrder.of_contents (wellFormed : pool.WellFormed) (there : message ∈ pool.messages)
    {payload : Bytes} {records : List (Nat × Wire.Value)}
    (ordered : OrderedRecords message records payload)
    (contents : ∀ record ∈ records, ∀ field ∈ message.fields, field.number = record.1 →
      ∀ id next, field.type = .message id → pool.message? id = some next →
      ∃ content, record.2 = .delimited content ∧ InOrder pool next content) :
    InOrder pool message payload := by
  have facts := wellFormed.messages message there
  have isField {number : Nat} {field : Field} (found : message.fieldByNumber? number = some field) :
      field ∈ message.fields ∧ field.number = number :=
    ⟨mem_of_fieldByNumber? found, facts.indexed.number_of_fieldByNumber? found⟩
  refine .intro ordered ?_ ?_
  · intro record member field id found isMessage
    rcases isField found with ⟨declared, same⟩
    have known := facts.types field declared
    rw [isMessage] at known
    rcases known with ⟨next, nextFound⟩
    rcases contents record member field declared same id next isMessage nextFound with
      ⟨content, isContent, _⟩
    exact ⟨content, isContent⟩
  · intro record member field id next content found isMessage nextFound isContent
    rcases isField found with ⟨declared, same⟩
    rcases contents record member field declared same id next isMessage nextFound with
      ⟨other, isOther, ordered⟩
    cases isContent.symm.trans isOther
    exact ordered

/-- Messages that are shorter than a payload have their records in order. -/
def OrderedBelow (pool : Pool) (length : Nat) : Prop :=
  ∀ message ∈ pool.messages, ∀ members payload, encodeMembers pool message members = .ok payload →
    payload.length < length → InOrder pool message payload

/-- The entries of a map are in order if the messages in them are. -/
theorem inOrder_of_entryConverted (wellFormed : pool.WellFormed) {id : MessageId} {entry : Message}
    (found : pool.message? id = some entry) {key : Scalar} {type : ValueType}
    (fields : entry.fields = [.entryKey key, .entryValue type]) {member : String × Json.Value}
    {content : Bytes} (converted : EntryConverted pool key type member content)
    (below : OrderedBelow pool content.length) : InOrder pool entry content := by
  have there := List.mem_of_getElem? found
  have indexed := (wellFormed.messages entry there).indexed
  rcases converted with ⟨first, second, _, valueConverted, same⟩
  rw [entryContent_eq] at same
  have ordered : OrderedRecords entry [(1, first), (2, second)] content := by
    rw [same]
    refine orderedRecords_encodeAll (by simp [Wire.IsNumber]) (by simp) ?_
    have isKey := indexed.fieldByNumber?_of_mem (fields ▸ List.mem_cons_self)
    have isValue := indexed.fieldByNumber?_of_mem
      (fields ▸ List.mem_cons_of_mem _ List.mem_cons_self)
    intro record isRecord
    rcases List.mem_cons.mp isRecord with rfl | isRecord
    · exact ⟨_, isKey⟩
    · exact List.mem_singleton.mp isRecord ▸ ⟨_, isValue⟩
  refine .of_contents wellFormed there ordered ?_
  intro record isRecord field declared number inner next isMessage nextFound
  -- Only the second record is of a field that may hold a message.
  rw [fields] at declared
  rcases List.mem_cons.mp declared with rfl | declared
  · cases isMessage
  · cases List.mem_singleton.mp declared
    have isSecond : record = (2, second) := by
      rcases List.mem_cons.mp isRecord with rfl | isRecord
      · cases number
      · exact List.mem_singleton.mp isRecord
    subst isSecond
    have isType : type = .message inner := isMessage
    subst isType
    have encoded : ∃ members bytes, second = .delimited bytes ∧
        encodeMembers pool next members = .ok bytes := by
      split at valueConverted
      · cases valueConverted
        exact ⟨[], [], rfl, encodeMembers_nil pool next⟩
      · exact exists_encodeMembers_of_convert nextFound valueConverted
    rcases encoded with ⟨members, bytes, rfl, encoded⟩
    refine ⟨bytes, rfl, below next (List.mem_of_getElem? nextFound) members bytes encoded ?_⟩
    rw [same]
    exact length_content_lt isRecord

/-- The values that are written for a field that refers to messages are messages in order. -/
theorem inOrder_of_fieldConverted (wellFormed : pool.WellFormed) (there : message ∈ pool.messages)
    {field : Field} (member : field ∈ message.fields) {id : MessageId} {next : Message}
    (isMessage : field.type = .message id) (found : pool.message? id = some next)
    {given : Json.Value} {wires : List Wire.Value}
    (converted : FieldConverted pool field given wires) {wire : Wire.Value}
    (isWritten : wire ∈ wires) {length : Nat} (below : OrderedBelow pool length)
    (shorter : ∀ content, wire = .delimited content → content.length < length) :
    ∃ content, wire = .delimited content ∧ InOrder pool next content := by
  have ofConverted {value : Json.Value}
      (ok : convert pool field.name (.message id) value = .ok wire) :
      ∃ content, wire = .delimited content ∧ InOrder pool next content := by
    rcases exists_encodeMembers_of_convert found ok with ⟨members, content, same, encoded⟩
    exact ⟨content, same, below next (List.mem_of_getElem? found) members content encoded
      (shorter content same)⟩
  unfold FieldConverted at converted
  cases wellFormed.fieldKind there member with
  | simple shape notMessage =>
    rw [Field.type_of_shape shape, Shape.type] at isMessage
    rw [isMessage] at notMessage
    cases notMessage
  | message shape nextFound notEntry =>
    cases (Field.type_of_shape shape).symm.trans isMessage
    simp only [shape] at converted
    rcases converted with ⟨value, ok, rfl⟩
    split at isWritten
    · cases isWritten
    · exact ofConverted (List.mem_singleton.mp isWritten ▸ ok)
  | repeated shape packable known =>
    cases (Field.type_of_shape shape).symm.trans isMessage
    simp only [shape] at converted
    rcases converted with ⟨elements, ok, rfl⟩
    rename_i packed
    have apart : packed = false := by
      cases packed with
      | false => rfl
      | true => cases packable rfl
    rw [apart, blocks, if_neg (fun both => Bool.false_ne_true both.1)] at isWritten
    cases given with
    | array items =>
      -- Messages are never packed, so every element has a record of its own.
      rcases exists_source (forall₂_of_convertItems ok) wire isWritten with ⟨item, _, itemOk⟩
      exact ofConverted itemOk
    | _ => cases ok
  | map shape entryFound fields legal known =>
    cases (Field.type_of_shape shape).symm.trans isMessage
    cases entryFound.symm.trans found
    simp only [shape] at converted
    rcases converted with ⟨contents, ok, rfl⟩
    rcases List.mem_map.mp isWritten with ⟨content, isContent, rfl⟩
    cases given with
    | object entries =>
      simp only [convertMap, found, fields] at ok
      rcases exists_source (forall₂_of_convertEntries ok) content isContent with
        ⟨entry, _, entryOk⟩
      refine ⟨content, rfl, inOrder_of_entryConverted wellFormed found fields entryOk ?_⟩
      intro other otherThere members payload encoded short
      exact below other otherThere members payload encoded
        (Nat.lt_trans short (shorter content rfl))
    | _ => cases ok

theorem inOrder_of_encodeMembers (wellFormed : pool.WellFormed) (there : message ∈ pool.messages)
    {members : Json.Members} {payload : Bytes}
    (encoded : encodeMembers pool message members = .ok payload) : InOrder pool message payload := by
  -- By induction on the length of the payload: the messages inside of it are shorter.
  have all (length : Nat) : OrderedBelow pool length := by
    induction length with
    | zero => exact fun _ _ _ _ _ impossible => nomatch impossible
    | succ length inductionHypothesis =>
      intro message there members payload encoded short
      have indexed := (wellFormed.messages message there).indexed
      rcases exists_convertedFields indexed encoded with ⟨given, wires, rfl, absent, converted, _⟩
      refine .of_contents wellFormed there (orderedRecords_writtenFields indexed wires) ?_
      intro record isRecord field declared number id next isMessage found
      rcases mem_recordsByNumber.mp isRecord with ⟨other, otherDeclared, wire, isWritten, rfl⟩
      cases indexed.eq_of_number declared otherDeclared number
      have isGiven : (given field).isSome = true := by
        cases held : given field with
        | none => exact absurd (absent field held) (List.ne_nil_of_mem isWritten)
        | some value => rfl
      rcases Option.isSome_iff_exists.mp isGiven with ⟨value, held⟩
      apply inOrder_of_fieldConverted wellFormed there declared isMessage found
        (converted field value held) isWritten inductionHypothesis
      rintro content rfl
      exact Nat.lt_of_lt_of_le (length_content_lt isRecord) (Nat.le_of_lt_succ short)
  exact all (payload.length + 1) message there members payload encoded (Nat.lt_succ_self _)

end Documents
end Payload

open Schema Payload

/-- Whatever was registered, documents of a message that differ in the order of the keys of message
objects are encoded alike or not at all, and a payload consists of records in the order of their
field numbers, at every level. -/
theorem encode_rearranged (attempts : List (String × String)) {name : String} {message : Message}
    (found : (Pool.registerAll attempts).findMessage? name = some message)
    {document other : Json.Value}
    (rearranged : Relation.ReflTransGen (Rearranged (.registerAll attempts) message)
      document other) :
    (encode (.registerAll attempts) name document).toOption =
        (encode (.registerAll attempts) name other).toOption ∧
      ∀ payload, encode (.registerAll attempts) name document = .ok payload →
        InOrder (.registerAll attempts) message payload := by
  have wellFormed := Pool.wellFormed_registerAll attempts
  rcases wellFormed.exists_of_findMessage? found with ⟨id, there, _⟩
  refine ⟨toOption_encode_eq_of_reflTransGen found rearranged, fun payload encoded => ?_⟩
  cases document with
  | object members =>
    rw [encode_object found] at encoded
    exact inOrder_of_encodeMembers wellFormed (List.mem_of_getElem? there) encoded
  | _ =>
    rw [encode, found] at encoded
    cases encoded

/-- The members of a node in a map. -/
def linkedMembers : Json.Members := [("name", .string "a"), ("marks", .array [.string "7"])]

/-- The members of a node with another node in a map. -/
def linkingMembers (linked : Json.Members) : Json.Members :=
  [("name", .string "c"), ("links", .object [("1", .object linked)])]

/-- Both objects list their members backwards. -/
theorem encode_rearranged_node : ∃ message,
    (Pool.registerAll nodeAttempts).findMessage? "Node" = some message ∧
      encode (.registerAll nodeAttempts) "Node" (.object (linkingMembers linkedMembers)) =
        .ok [18, 9, 8, 1, 18, 5, 8, 7, 26, 1, 97, 26, 1, 99] ∧
      encode (.registerAll nodeAttempts) "Node"
          (.object (linkingMembers linkedMembers.reverse).reverse) =
        .ok [18, 9, 8, 1, 18, 5, 8, 7, 26, 1, 97, 26, 1, 99] ∧
      InOrder (.registerAll nodeAttempts) message
        [18, 9, 8, 1, 18, 5, 8, 7, 26, 1, 97, 26, 1, 99] := by
  have links : ((Pool.registerAll nodeAttempts).findMessage? "Node").bind (fun message =>
      (message.fieldByName? "links").map (·.shape)) = some (.map ⟨1⟩) := by
    rw [nodeAttempts, Pool.registerAll_ofList]
    decide +kernel
  have isEntry : ((Pool.registerAll nodeAttempts).message? ⟨1⟩).map (·.fields) =
      some [.entryKey .int32, .entryValue (.message ⟨0⟩)] := by
    rw [nodeAttempts, Pool.registerAll_ofList]
    decide +kernel
  have isNode : ((Pool.registerAll nodeAttempts).message? ⟨0⟩).isSome = true := by
    rw [nodeAttempts, Pool.registerAll_ofList]
    decide +kernel
  have encoded : encode (.registerAll nodeAttempts) "Node"
      (.object (linkingMembers linkedMembers)) =
        .ok [18, 9, 8, 1, 18, 5, 8, 7, 26, 1, 97, 26, 1, 99] := by
    rw [nodeAttempts, Pool.registerAll_ofList]
    decide +kernel
  rcases Option.bind_eq_some_iff.mp links with ⟨message, found, isShape⟩
  rcases Option.map_eq_some_iff.mp isShape with ⟨field, named, shape⟩
  rcases Option.map_eq_some_iff.mp isEntry with ⟨entry, entryFound, fields⟩
  rcases Option.isSome_iff_exists.mp isNode with ⟨next, nextFound⟩
  have inner : Rearranged (.registerAll nodeAttempts) message
      (.object (linkingMembers linkedMembers)) (.object (linkingMembers linkedMembers.reverse)) :=
    .value [("name", .string "c")] [] [] [] named shape entryFound fields rfl nextFound
      (.here linkedMembers.reverse_perm.symm)
  have outer := (Relation.ReflTransGen.single inner).tail
    (.here (linkingMembers linkedMembers.reverse).reverse_perm.symm)
  rcases encode_rearranged nodeAttempts found outer with ⟨same, ordered⟩
  rw [encoded] at same
  exact ⟨message, found, encoded, Outcome.toOption_eq_some_iff.mp same.symm, ordered _ encoded⟩

end SchemaRecords
