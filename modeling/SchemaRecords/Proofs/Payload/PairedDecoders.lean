import SchemaRecords.Proofs.Payload.RelatedDecoders

/-!
# Decoders whose documents are encoded alike

Two decoders form a pair if they refuse the same payloads for the same reasons, and if what they
show otherwise is encoded to the same bytes.  The documents themselves may differ.

Values that are written as the same value on the wire make up fields that are written as the same
records, and these make up documents with the same payload, as long as the keys of both lead to the
fields.  Where only one of the documents shows a default, it has to be one that is not written.
-/

namespace SchemaRecords.Payload

open SchemaRecords.Schema

/-! ## Pairs -/

/-- Two values that are written as the same value on the wire. -/
def WrittenAlike (pool : Pool) (type : ValueType) (first second : Json.Value) : Prop :=
  ∃ wire, Written pool type first wire ∧ Written pool type second wire

/-- Two documents of a message with the same payload. -/
def EncodedAlike (pool : Pool) (message : Message) (first second : Json.Value) : Prop :=
  ∃ members others payload, first = .object members ∧ second = .object others ∧
    encodeMembers pool message members = .ok payload ∧
    encodeMembers pool message others = .ok payload

/-- Two decoders that refuse alike, and whose documents are encoded alike, for all messages whose
keys can be read back. -/
def Paired (pool : Pool) (options others : Options) (first second : Decoder) : Prop :=
  ∀ id message, pool.message? id = some message → message.isMapEntry = false →
    options.Readable pool message → others.Readable pool message → ∀ payload,
      Outcome.Related (EncodedAlike pool message) (first message payload) (second message payload)

section Pairs

variable {pool : Pool} {relation : ValueRelation pool} {options others : Options} {message : Message}

theorem WrittenAlike.refl {type : ValueType} {value : Json.Value}
    (writable : Writable pool type value) : WrittenAlike pool type value value :=
  writable.imp fun _ written => ⟨written, written⟩

theorem EncodedAlike.written {id : MessageId} (found : pool.message? id = some message)
    {one other : Json.Value} (alike : EncodedAlike pool message one other) :
    WrittenAlike pool (.message id) one other := by
  rcases alike with ⟨members, otherMembers, payload, isOne, isOther, encoded, otherEncoded⟩
  subst isOne isOther
  refine ⟨.delimited payload, ⟨rfl, rfl, fun field => ?_⟩, ⟨rfl, rfl, fun field => ?_⟩⟩
  · rw [convert_object found, encoded]
    rfl
  · rw [convert_object found, otherEncoded]
    rfl

/-! ## Fields -/

/-- A value of a field that is written as some values on the wire. -/
structure FieldWritten (pool : Pool) (field : Field) (value : Json.Value)
    (wires : List Wire.Value) : Prop where
  notNull : value.isNull = false
  records : valueRecords pool field value = .ok (writtenValues field wires)

/-- Two values of a field that are written alike. -/
def FieldAlike (pool : Pool) (field : Field) (one other : Json.Value) : Prop :=
  ∃ wires, FieldWritten pool field one wires ∧ FieldWritten pool field other wires

theorem WrittenAlike.field {type : ValueType} {explicit : Bool} {field : Field}
    (shape : field.shape = .singular type explicit) {one other : Json.Value}
    (alike : WrittenAlike pool type one other) : FieldAlike pool field one other := by
  rcases alike with ⟨wire, written, otherWritten⟩
  exact ⟨_, ⟨written.notNull, valueRecords_single shape written⟩,
    ⟨otherWritten.notNull, valueRecords_single shape otherWritten⟩⟩

theorem exists_wires_of_alike {type : ValueType} {values otherValues : List Json.Value}
    (each : List.Forall₂ (WrittenAlike pool type) values otherValues) :
    ∃ wires, List.Forall₂ (Written pool type) values wires ∧
      List.Forall₂ (Written pool type) otherValues wires := by
  induction each with
  | nil => exact ⟨[], .nil, .nil⟩
  | cons here _ inductionHypothesis =>
    rcases here with ⟨wire, one, other⟩
    rcases inductionHypothesis with ⟨wires, later, otherLater⟩
    exact ⟨wire :: wires, .cons one later, .cons other otherLater⟩

theorem exists_contents_of_alike
    (alike : ∀ type one other, relation.holds type one other → WrittenAlike pool type one other)
    {key : Scalar} {type : ValueType} {entries others : Json.Members}
    (each : List.Forall₂ (MemberRelated relation key type) entries others) :
    ∃ contents, List.Forall₂ (EntryWritten pool key type) entries contents ∧
      List.Forall₂ (EntryWritten pool key type) others contents := by
  induction each with
  | nil => exact ⟨[], .nil, .nil⟩
  | cons here _ inductionHypothesis =>
    rcases here with ⟨same, ⟨keyWire, keyWritten⟩, related⟩
    rcases alike _ _ _ related with ⟨wire, one, other⟩
    rcases inductionHypothesis with ⟨contents, later, otherLater⟩
    exact ⟨_ :: contents, .cons ⟨keyWire, wire, keyWritten, one, rfl⟩ later,
      .cons ⟨keyWire, wire, same ▸ keyWritten, other, rfl⟩ otherLater⟩

/-- Values of a field that are written alike part by part are written alike. -/
theorem FieldRelated.alike
    (alike : ∀ type one other, relation.holds type one other → WrittenAlike pool type one other)
    {field : Field} {one other : Json.Value} (related : FieldRelated relation field one other) :
    FieldAlike pool field one other := by
  cases related with
  | single shape related => exact (alike _ _ _ related).field shape
  | elements shape each =>
    rcases exists_wires_of_alike (each.imp (alike _)) with ⟨wires, written, otherWritten⟩
    exact ⟨_, ⟨rfl, valueRecords_repeated shape written⟩,
      ⟨rfl, valueRecords_repeated shape otherWritten⟩⟩
  | entries shape found fields each =>
    rcases exists_contents_of_alike alike each with ⟨contents, written, otherWritten⟩
    exact ⟨_, ⟨rfl, valueRecords_map shape found fields written⟩,
      ⟨rfl, valueRecords_map shape found fields otherWritten⟩⟩

/-! ## Documents -/

/-- What two decoders show for a field is written as the same values. -/
structure ShownAlike (pool : Pool) (field : Field) (shown otherShown : Option Json.Value)
    (wires : List Wire.Value) : Prop where
  written : ∀ value, shown = some value → FieldWritten pool field value wires
  otherWritten : ∀ value, otherShown = some value → FieldWritten pool field value wires
  absent : shown = none → wires = []
  otherAbsent : otherShown = none → wires = []

theorem exists_shownAlike
    (alike : ∀ type one other, relation.holds type one other → WrittenAlike pool type one other)
    {field : Field} {shown otherShown : Option Json.Value}
    (unwritten : options.emitDefaults = false → others.emitDefaults = true →
      ∀ value, IsFilling pool field value → FieldWritten pool field value [])
    (related : ShownRelated relation options others field shown otherShown) :
    ∃ wires, ShownAlike pool field shown otherShown wires := by
  cases related with
  | absent =>
    exact ⟨[], fun _ impossible => (nomatch impossible), fun _ impossible => (nomatch impossible),
      fun _ => rfl, fun _ => rfl⟩
  | shown related =>
    rcases related.alike alike with ⟨wires, written, otherWritten⟩
    exact ⟨wires, fun _ same => Option.some.inj same ▸ written,
      fun _ same => Option.some.inj same ▸ otherWritten, fun impossible => (nomatch impossible),
      fun impossible => (nomatch impossible)⟩
  | filled sparse full filling =>
    exact ⟨[], fun _ impossible => (nomatch impossible),
      fun _ same => Option.some.inj same ▸ unwritten sparse full _ filling, fun _ => rfl,
      fun _ => rfl⟩

/-- Documents that show alike what they show for each field are encoded alike. -/
theorem DocumentsRelated.encodedAlike (indexed : message.Indexed)
    (one : options.Readable pool message) (other : others.Readable pool message)
    (alike : ∀ type one other, relation.holds type one other → WrittenAlike pool type one other)
    (unwritten : options.emitDefaults = false → others.emitDefaults = true →
      ∀ field ∈ message.fields, ∀ value, IsFilling pool field value →
        FieldWritten pool field value [])
    {shown otherShown : Field → Option Json.Value} {document otherDocument : Json.Value}
    (related : DocumentsRelated relation options others message shown otherShown document
      otherDocument) : EncodedAlike pool message document otherDocument := by
  have choice (field : Field) : ∃ wires, field ∈ message.fields →
      ShownAlike pool field (shown field) (otherShown field) wires := by
    by_cases member : field ∈ message.fields
    · rcases exists_shownAlike alike (fun sparse full => unwritten sparse full field member)
        (related.each field member) with ⟨wires, law⟩
      exact ⟨wires, fun _ => law⟩
    · exact ⟨[], fun isMember => absurd isMember member⟩
  choose wires law using choice
  refine ⟨_, _, writtenFields message wires, related.isOne (nodup_keys indexed one),
    related.isOther (nodup_keys indexed other), ?_, ?_⟩
  · apply encodeMembers_membersUnder indexed (one message .refl) _ _ related.exclusive
    · intro field member value isShown
      have written := (law field member).written value isShown
      exact ⟨written.notNull, written.records⟩
    · exact fun field member => (law field member).absent
  · apply encodeMembers_membersUnder indexed (other message .refl) _ _ related.otherExclusive
    · intro field member value isShown
      have written := (law field member).otherWritten value isShown
      exact ⟨written.notNull, written.records⟩
    · exact fun field member => (law field member).otherAbsent

end Pairs

/-- The relation of values that are written alike. -/
def writtenAlike (pool : Pool) : ValueRelation pool where
  holds := WrittenAlike pool
  refl := fun _ writable => .refl writable

/-- Decoders that show defaults alike form a pair at any depth. -/
theorem paired_decodeWithin {pool : Pool} (wellFormed : pool.WellFormed) {options others : Options}
    (same : options.emitDefaults = others.emitDefaults) (levels : Nat) :
    Paired pool options others (decodeWithin pool options levels)
      (decodeWithin pool others levels) := by
  intro id root there notEntry one other payload
  have encoded {id : MessageId} {message : Message} (found : pool.message? id = some message)
      (reached : pool.Reaches root message) {shown otherShown : Field → Option Json.Value}
      {document otherDocument : Json.Value} (related : DocumentsRelated (writtenAlike pool) options
        others message shown otherShown document otherDocument) :
      EncodedAlike pool message document otherDocument :=
    related.encodedAlike (wellFormed.messages message (List.mem_of_getElem? found)).indexed
      (one.of_reaches reached) (other.of_reaches reached) (fun _ _ _ here => here)
      fun sparse full => absurd (sparse.symm.trans (same.trans full)) Bool.false_ne_true
  have related := decodeWithin_related wellFormed (writtenAlike pool) (fun full => same ▸ full)
    (fun id message found _ reached _ _ _ _ here => (encoded found reached here).written found)
    levels
  apply (related id root there notEntry .refl payload).imp
  rintro document otherDocument ⟨_, _, here⟩
  exact encoded there .refl here

end SchemaRecords.Payload
