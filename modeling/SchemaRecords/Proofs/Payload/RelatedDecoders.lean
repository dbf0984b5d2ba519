import SchemaRecords.Proofs.Payload.WritableValues
import SchemaRecords.Proofs.Schema.FieldKinds

/-!
# Decoders whose values are related

Two decoders go through a payload side by side: through its records, the occurrences among them,
the contributions to a field and the value of the field.  What they make of a message is related if
what they make of the messages in it is, whatever the relation, as long as simple values bear it to
themselves.

The two may show their fields under different keys, and one may show defaults where the other shows
nothing.  So there are three things that a field can show: nothing on both sides, related values on
both, or nothing on one side and the default on the other.
-/

namespace SchemaRecords.Payload

open SchemaRecords.Schema

/-! ## Relations between values -/

/-- A relation between the values of a type that two decoders show.  Values that can be written bear
it to themselves, unless they are messages. -/
structure ValueRelation (pool : Pool) where
  holds : ValueType → Json.Value → Json.Value → Prop
  refl : ∀ {type value}, type.isMessage = false → Writable pool type value → holds type value value

section Related

variable {pool : Pool} {relation : ValueRelation pool} {options others : Options}
  {message : Message} {first second firstEntry secondEntry : Decoder}

/-- Two decoders that refuse the payloads of a type alike, and whose values are related otherwise. -/
def RelatedAt (relation : ValueRelation pool) (first second : Decoder) (type : ValueType) : Prop :=
  ∀ id, type = .message id → ∀ payload, Outcome.Related (relation.holds type)
    (first.follow pool id payload) (second.follow pool id payload)

/-- Two decoders that do so for all messages that are reached from one. -/
def RelatedBelow (relation : ValueRelation pool) (first second : Decoder) (message : Message) :
    Prop :=
  ∀ id next, pool.message? id = some next → next.isMapEntry = false → pool.Reaches message next →
    ∀ payload, Outcome.Related (relation.holds (.message id)) (first next payload)
      (second next payload)

theorem RelatedBelow.of_reaches {next : Message} (below : RelatedBelow relation first second message)
    (reached : pool.Reaches message next) : RelatedBelow relation first second next :=
  fun id inner found notEntry further => below id inner found notEntry (reached.trans further)

theorem RelatedBelow.of_shape (below : RelatedBelow relation first second message) {field : Field}
    (member : field ∈ message.fields) {shape : Shape} (same : field.shape = shape)
    (known : pool.Nameable shape.type) : RelatedAt relation first second shape.type := by
  intro id isMessage payload
  rw [isMessage] at known ⊢
  rcases known with ⟨next, found, notEntry⟩
  simp only [Decoder.follow, found]
  exact below id next found notEntry (.of_shape member same isMessage found) payload

theorem RelatedBelow.of_map (below : RelatedBelow relation first second message) {field : Field}
    (member : field ∈ message.fields) {id : MessageId} (shape : field.shape = .map id)
    {entry : Message} (found : pool.message? id = some entry) {key : Scalar} {type : ValueType}
    (fields : entry.fields = [.entryKey key, .entryValue type]) (known : pool.Nameable type) :
    RelatedAt relation first second type := by
  intro inner isMessage payload
  rw [isMessage] at known ⊢
  rcases known with ⟨next, innerFound, notEntry⟩
  simp only [Decoder.follow, innerFound]
  exact below inner next innerFound notEntry
    (.of_map member shape found (isMessage ▸ fields) innerFound) payload

/-! ## Values -/

theorem inField_related {α β : Type} {relation : α → β → Prop} {one : Decoded α} {other : Decoded β}
    (related : Outcome.Related relation one other) (field : String) :
    Outcome.Related relation (inField field one) (inField field other) := by
  cases related with
  | ok here => exact .ok here
  | error refusal => exact .error _

theorem readValue?_related {type : ValueType} (known : pool.HasType type)
    (related : RelatedAt relation first second type) (message field : String) (wire : Wire.Value) :
    Option.Rel (Outcome.Related (relation.holds type))
      (readValue? pool first message field type wire)
      (readValue? pool second message field type wire) := by
  cases notMessage : type.isMessage with
  | false =>
    rw [readValue?_of_notMessage notMessage first second]
    cases read : readValue? pool second message field type wire with
    | none => exact .none
    | some run =>
      refine .some (.of_self fun value isValue => relation.refl notMessage ?_)
      exact writable_of_readValue? known notMessage (isValue ▸ read)
  | true =>
    cases type with
    | message id =>
      cases wire with
      | delimited content => exact .some (inField_related (related id rfl content) field)
      | varint word => exact .none
      | fixed64 word => exact .none
      | fixed32 word => exact .none
    | scalar scalar => cases notMessage
    | enumeration id => cases notMessage

theorem decodeMissing_related (wellFormed : pool.WellFormed) {type : ValueType}
    (known : pool.HasType type) (related : RelatedAt relation first second type) :
    Outcome.Related (relation.holds type) (decodeMissing pool first type)
      (decodeMissing pool second type) := by
  cases notMessage : type.isMessage with
  | false =>
    have default := writable_renderDefault known notMessage wellFormed
    cases type with
    | message id => cases notMessage
    | scalar scalar => exact .ok (relation.refl rfl default)
    | enumeration id => exact .ok (relation.refl rfl default)
  | true =>
    cases type with
    | message id => exact related id rfl []
    | scalar scalar => cases notMessage
    | enumeration id => cases notMessage

/-! ## Records -/

/-- Payloads whose records are interpreted alike are interpreted alike. -/
theorem readRecords_related {α β : Type} {relation : α → β → Prop}
    {interpret : Wire.Record → Option (Decoded α)} {others : Wire.Record → Option (Decoded β)}
    (each : ∀ record, Option.Rel (Outcome.Related relation) (interpret record) (others record))
    (records : List Wire.Record) :
    Outcome.Related (List.Forall₂ relation) (readRecords interpret records)
      (readRecords others records) := by
  induction records with
  | nil => exact .ok .nil
  | cons record rest inductionHypothesis =>
    have here := each record
    simp only [readRecords]
    cases one : interpret record <;> cases other : others record <;> rw [one, other] at here
    · exact inductionHypothesis
    · cases here
    · cases here
    · cases here with
      | some here =>
        cases here with
        | error refusal => exact .error refusal
        | ok here =>
          rcases inductionHypothesis.ok_or_error with
            ⟨values, others, isRead, isReadToo, later⟩ | ⟨refusal, isRead, isReadToo⟩
          · simp only [isRead, isReadToo]
            exact .ok (.cons here later)
          · simp only [isRead, isReadToo]
            exact .error refusal

theorem readPayload_related {α β : Type} {relation : α → β → Prop}
    {interpret : Wire.Record → Option (Decoded α)} {others : Wire.Record → Option (Decoded β)}
    (each : ∀ record, Option.Rel (Outcome.Related relation) (interpret record) (others record))
    (name : String) (payload : Bytes) :
    Outcome.Related (List.Forall₂ relation) (readPayload name interpret payload)
      (readPayload name others payload) := by
  unfold readPayload
  rcases (readRecords_related each (Wire.Record.split payload).1).ok_or_error with
    ⟨values, others, isRead, isReadToo, related⟩ | ⟨refusal, isRead, isReadToo⟩
  · simp only [isRead, isReadToo]
    cases (Wire.Record.split payload).2 with
    | none => exact .ok related
    | some fault => exact .error _
  · simp only [isRead, isReadToo]
    exact .error refusal

/-! ## Entries -/

/-- A key of an entry that can be written. -/
def WritableKey (pool : Pool) (key : Scalar) (text : String) : Prop :=
  ∃ wire, convertKey pool (.entryKey key) text = .ok wire

/-- Two parts of an entry: the same key, or related values. -/
inductive EntryPart.Related (relation : ValueRelation pool) (key : Scalar) (type : ValueType) :
    EntryPart → EntryPart → Prop
  | key {value : Json.Value} (writable : WritableKey pool key (keyText value)) :
      Related relation key type (.key value) (.key value)
  | value {one other : Json.Value} (related : relation.holds type one other) :
      Related relation key type (.value one) (.value other)

/-- Two entries with one key and related values. -/
structure MemberRelated (relation : ValueRelation pool) (key : Scalar) (type : ValueType)
    (one other : String × Json.Value) : Prop where
  same : one.1 = other.1
  writable : WritableKey pool key one.1
  related : relation.holds type one.2 other.2

theorem Shown.writableKey {key : Scalar} (legal : key.isMapKey = true) {value : Json.Value}
    {wire : Wire.Value} (shown : Shown pool (.scalar key) value wire) :
    WritableKey pool key (keyText value) :=
  ⟨wire, shown.key legal _⟩

theorem keysOf_related {key : Scalar} {type : ValueType} {parts otherParts : List EntryPart}
    (each : List.Forall₂ (EntryPart.Related relation key type) parts otherParts) :
    keysOf parts = keysOf otherParts ∧
      ∀ value ∈ keysOf parts, WritableKey pool key (keyText value) := by
  induction each with
  | nil => exact ⟨rfl, List.forall_mem_nil _⟩
  | cons here _ inductionHypothesis =>
    rcases inductionHypothesis with ⟨same, writable⟩
    simp only [keysOf] at same writable ⊢
    cases here with
    | key isWritable =>
      simp only [List.filterMap_cons, same]
      exact ⟨trivial, List.forall_mem_cons.mpr ⟨isWritable, same ▸ writable⟩⟩
    | value related =>
      simp only [List.filterMap_cons, same]
      exact ⟨trivial, same ▸ writable⟩

theorem entryValuesOf_related {key : Scalar} {type : ValueType} {parts otherParts : List EntryPart}
    (each : List.Forall₂ (EntryPart.Related relation key type) parts otherParts) :
    List.Forall₂ (relation.holds type) (entryValuesOf parts) (entryValuesOf otherParts) := by
  induction each with
  | nil => exact .nil
  | cons here _ inductionHypothesis =>
    cases here with
    | key writable => exact inductionHypothesis
    | value related => exact .cons related inductionHypothesis

theorem getLast?_related {α β : Type} {relation : α → β → Prop} {list : List α} {other : List β}
    (each : List.Forall₂ relation list other) :
    Option.Rel relation list.getLast? other.getLast? := by
  have reversed := List.rel_reverse each
  rw [List.getLast?_eq_head?_reverse, List.getLast?_eq_head?_reverse]
  generalize list.reverse = firsts at *
  generalize other.reverse = seconds at *
  cases reversed with
  | nil => exact .none
  | cons here _ => exact .some here

theorem optionRel_map {α β γ δ : Type} {relation : α → β → Prop} {next : γ → δ → Prop}
    {one : Option α} {other : Option β} (related : Option.Rel relation one other) {f : α → γ}
    {g : β → δ} (later : ∀ first second, relation first second → next (f first) (g second)) :
    Option.Rel next (one.map f) (other.map g) := by
  cases related with
  | none => exact .none
  | some here => exact .some (later _ _ here)

theorem optionRel_imp {α β : Type} {relation next : α → β → Prop} {one : Option α} {other : Option β}
    (related : Option.Rel relation one other)
    (weaker : ∀ first second, relation first second → next first second) :
    Option.Rel next one other := by
  cases related with
  | none => exact .none
  | some here => exact .some (weaker _ _ here)

theorem readEntryPart_related {key : Scalar} (legal : key.isMapKey = true) {type : ValueType}
    (known : pool.HasType type) (related : RelatedAt relation first second type) (entry : String)
    (record : Wire.Record) :
    Option.Rel (Outcome.Related (EntryPart.Related relation key type))
      (readEntryPart pool first entry (.entryKey key) (.entryValue type) record)
      (readEntryPart pool second entry (.entryKey key) (.entryValue type) record) := by
  unfold readEntryPart
  cases record.value with
  | none => exact .none
  | some content =>
    dsimp only
    split
    · have notMessage : (Field.entryKey key).type.isMessage = false := rfl
      rw [readValue?_of_notMessage notMessage first second]
      cases read : readValue? pool second entry (Field.entryKey key).name
        (Field.entryKey key).type content with
      | none => exact .none
      | some run =>
        refine .some ?_
        cases run with
        | ok value =>
          rcases exists_of_readValue? (isSimple_key legal) read with ⟨wire, shown⟩
          exact .ok (.key (shown.writableKey legal))
        | error refusal => exact .error refusal
    · split
      · exact optionRel_map (readValue?_related known related _ _ _) fun _ _ follows =>
          follows.map fun _ _ here => .value here
      · exact .none

theorem decodeEntryAt_related (wellFormed : pool.WellFormed) {id : MessageId} {entry : Message}
    {key : Scalar} {type : ValueType} (found : pool.message? id = some entry)
    (fields : entry.fields = [.entryKey key, .entryValue type]) (legal : key.isMapKey = true)
    (known : pool.HasType type) (related : RelatedAt relation first second type)
    (payload : Bytes) :
    Outcome.Related (MemberRelated relation key type) (decodeEntryAt pool first id payload)
      (decodeEntryAt pool second id payload) := by
  simp only [decodeEntryAt, found, decodeEntry, fields]
  refine (readPayload_related (readEntryPart_related legal known related entry.fullName) _ _).bind
    fun parts otherParts each => ?_
  rcases keysOf_related each with ⟨sameKeys, writable⟩
  have keyWritable : WritableKey pool key
      (keyText ((keysOf parts).getLast?.getD (renderDefault pool (.scalar key)))) := by
    cases last : (keysOf parts).getLast? with
    | none => exact (shown_zero (isSimple_key legal)).writableKey legal
    | some final => exact writable final (List.mem_of_getLast? last)
  have last := getLast?_related (entryValuesOf_related each)
  rw [← sameKeys]
  generalize (entryValuesOf parts).getLast? = one at *
  generalize (entryValuesOf otherParts).getLast? = other at *
  cases last with
  | none =>
    exact (decodeMissing_related wellFormed known related).bind fun _ _ here =>
      .ok ⟨rfl, keyWritable, here⟩
  | some here => exact .ok ⟨rfl, keyWritable, here⟩

/-! ## Contributions -/

/-- Two contributions to a field, of which one shows what the other does, or related values. -/
inductive Contribution.Related (relation : ValueRelation pool) (field : Field) :
    Contribution → Contribution → Prop
  | value {type : ValueType} {explicit : Bool} (shape : field.shape = .singular type explicit)
      {value : Json.Value} (writable : Writable pool type value) :
      Related relation field (.value value) (.value value)
  | content (bytes : Bytes) : Related relation field (.content bytes) (.content bytes)
  | elements {type : ValueType} {packed : Bool} (shape : field.shape = .repeated type packed)
      {values otherValues : List Json.Value}
      (each : List.Forall₂ (relation.holds type) values otherValues) :
      Related relation field (.elements values) (.elements otherValues)
  | entry {id : MessageId} {entry : Message} {key : Scalar} {type : ValueType}
      (shape : field.shape = .map id) (found : pool.message? id = some entry)
      (fields : entry.fields = [.entryKey key, .entryValue type])
      {one other : String × Json.Value} (related : MemberRelated relation key type one other) :
      Related relation field (.entry one.1 one.2) (.entry other.1 other.2)

theorem writable_of_readPacked {type : ValueType} (known : pool.HasType type)
    (packable : type.isPackable = true) {name : String} {content : Bytes} {values : List Json.Value}
    (read : readPacked pool name type content = .ok values) :
    ∀ value ∈ values, Writable pool type value := by
  unfold readPacked at read
  split at read
  · cases read
    intro value member
    rcases List.mem_filterMap.mp member with ⟨wire, _, rendered⟩
    have isRead : readValue? pool refuse name name type wire = some (.ok value) := by
      rw [readValue?_of_isPackable packable, rendered]
      rfl
    exact writable_of_readValue? known (isMessage_of_isPackable packable) isRead
  · cases read

/-- A value gives a list what it gives it on the other side, or related elements.  A block is read
without the decoders, so its elements are the same. -/
theorem contribution?_related_elements {field : Field} {type : ValueType} {packed : Bool}
    (related : RelatedAt relation first second type) (shape : field.shape = .repeated type packed)
    (known : pool.HasType type) (wire : Wire.Value) :
    Option.Rel (Outcome.Related (Contribution.Related relation field))
      (contribution? pool first firstEntry message field wire)
      (contribution? pool second secondEntry message field wire) := by
  have single (wire : Wire.Value) :
      Option.Rel (Outcome.Related (Contribution.Related relation field))
        ((readValue? pool first message.fullName field.name type wire).map
          (·.map fun element => .elements [element]))
        ((readValue? pool second message.fullName field.name type wire).map
          (·.map fun element => .elements [element])) :=
    optionRel_map (readValue?_related known related _ _ wire) fun _ _ follows =>
      follows.map fun _ _ here => .elements shape (.cons here .nil)
  rw [contribution?.eq_def, contribution?.eq_def, shape]
  cases wire with
  | delimited content =>
    dsimp only
    split
    · rename_i isPackable
      refine .some ?_
      cases read : readPacked pool message.fullName type content with
      | error refusal => exact .error refusal
      | ok values =>
        refine .ok (.elements shape (List.forall₂_same.mpr fun value there => ?_))
        exact relation.refl (isMessage_of_isPackable isPackable)
          (writable_of_readPacked known isPackable read value there)
    · exact single _
  | varint word => exact single _
  | fixed64 word => exact single _
  | fixed32 word => exact single _

/-- A value gives a field what it gives it on the other side, or something related. -/
theorem contribution?_related (wellFormed : pool.WellFormed)
    (below : RelatedBelow relation first second message)
    (belowEntry : RelatedBelow relation firstEntry secondEntry message) {field : Field}
    (member : field ∈ message.fields) (kind : pool.FieldKind field) (wire : Wire.Value) :
    Option.Rel (Outcome.Related (Contribution.Related relation field))
      (contribution? pool first firstEntry message field wire)
      (contribution? pool second secondEntry message field wire) := by
  cases kind with
  | simple shape notMessage known =>
    rename_i type explicit
    rw [contribution?_of_notMessage shape notMessage, contribution?_of_notMessage shape notMessage,
      readValue?_of_notMessage notMessage first second]
    cases read : readValue? pool second message.fullName field.name type wire with
    | none => exact .none
    | some run =>
      refine .some ?_
      cases run with
      | ok value => exact .ok (.value shape (writable_of_readValue? known.hasType notMessage read))
      | error refusal => exact .error refusal
  | message shape found notEntry =>
    rw [contribution?.eq_def, contribution?.eq_def, shape]
    cases wire with
    | delimited content => exact .some (.ok (.content content))
    | varint word => exact .none
    | fixed64 word => exact .none
    | fixed32 word => exact .none
  | «repeated» shape packable known =>
    exact contribution?_related_elements (below.of_shape member shape known) shape known.hasType wire
  | map shape found fields legal known =>
    rename_i id entry key type
    rw [contribution?.eq_def, contribution?.eq_def, shape]
    cases wire with
    | delimited content =>
      refine .some (inField_related ?_ _)
      exact (decodeEntryAt_related wellFormed found fields legal known.hasType
        (belowEntry.of_map member shape found fields known) content).map
          fun _ _ here => .entry shape found fields here
    | varint word => exact .none
    | fixed64 word => exact .none
    | fixed32 word => exact .none

/-! ## Occurrences -/

/-- Two occurrences of one field of a message with related contributions. -/
structure Occurrence.Related (relation : ValueRelation pool) (message : Message)
    (one other : Occurrence) : Prop where
  member : one.field ∈ message.fields
  same : one.field = other.field
  related : Contribution.Related relation one.field one.contribution other.contribution

theorem occurrence?_related (wellFormed : pool.WellFormed) (there : message ∈ pool.messages)
    (below : RelatedBelow relation first second message)
    (belowEntry : RelatedBelow relation firstEntry secondEntry message) (record : Wire.Record) :
    Option.Rel (Outcome.Related (Occurrence.Related relation message))
      (occurrence? pool first firstEntry message record)
      (occurrence? pool second secondEntry message record) := by
  cases holds : record.value with
  | none =>
    simp only [occurrence?, holds]
    exact .none
  | some value =>
    cases found : message.fieldByNumber? record.number with
    | none =>
      simp only [occurrence?, holds, found]
      exact .none
    | some field =>
      have member := mem_of_fieldByNumber? found
      rw [occurrence?_of_field holds found, occurrence?_of_field holds found]
      exact optionRel_map (contribution?_related wellFormed below belowEntry member
        (wellFormed.fieldKind there member) value) fun _ _ follows =>
          follows.map fun _ _ here => ⟨member, rfl, here⟩

theorem fields_declared {occurrences otherOccurrences : List Occurrence}
    (each : List.Forall₂ (Occurrence.Related relation message) occurrences otherOccurrences) :
    (∀ occurrence ∈ occurrences, occurrence.field ∈ message.fields) ∧
      ∀ occurrence ∈ otherOccurrences, occurrence.field ∈ message.fields := by
  induction each with
  | nil => exact ⟨List.forall_mem_nil _, List.forall_mem_nil _⟩
  | cons here _ inductionHypothesis =>
    rcases inductionHypothesis with ⟨declared, otherDeclared⟩
    exact ⟨List.forall_mem_cons.mpr ⟨here.member, declared⟩,
      List.forall_mem_cons.mpr ⟨here.same ▸ here.member, otherDeclared⟩⟩

theorem forall₂_takeWhile {α β : Type} {relation : α → β → Prop} {p : α → Bool} {q : β → Bool}
    (agree : ∀ one other, relation one other → p one = q other) {list : List α} {others : List β}
    (each : List.Forall₂ relation list others) :
    List.Forall₂ relation (list.takeWhile p) (others.takeWhile q) := by
  induction each with
  | nil => exact .nil
  | cons here _ inductionHypothesis =>
    rw [List.takeWhile_cons, List.takeWhile_cons, agree _ _ here]
    split
    · exact .cons here inductionHypothesis
    · exact .nil

theorem forall₂_filter {α β : Type} {relation : α → β → Prop} {p : α → Bool} {q : β → Bool}
    (agree : ∀ one other, relation one other → p one = q other) {list : List α} {others : List β}
    (each : List.Forall₂ relation list others) :
    List.Forall₂ (fun one other => relation one other ∧ p one = true) (list.filter p)
      (others.filter q) := by
  induction each with
  | nil => exact .nil
  | cons here _ inductionHypothesis =>
    rw [List.filter_cons, List.filter_cons, ← agree _ _ here]
    split
    · rename_i kept
      exact .cons ⟨here, kept⟩ inductionHypothesis
    · exact inductionHypothesis

theorem contributionsTo_related (indexed : message.Indexed) {field : Field}
    (member : field ∈ message.fields) {occurrences otherOccurrences : List Occurrence}
    (each : List.Forall₂ (Occurrence.Related relation message) occurrences otherOccurrences) :
    List.Forall₂ (Contribution.Related relation field) (contributionsTo field occurrences)
      (contributionsTo field otherOccurrences) := by
  have kept := forall₂_takeWhile (p := fun occurrence => !occurrence.displaces field)
    (q := fun occurrence => !occurrence.displaces field)
    (fun one other here => by simp only [Occurrence.displaces, here.same]) (List.rel_reverse each)
  have own := forall₂_filter
    (p := fun occurrence => decide (occurrence.field.number = field.number))
    (q := fun occurrence => decide (occurrence.field.number = field.number))
    (fun one other here => by rw [here.same]) (List.rel_reverse kept)
  unfold contributionsTo
  rw [List.forall₂_map_left_iff, List.forall₂_map_right_iff]
  apply own.imp
  intro one other both
  have same := indexed.eq_of_number both.1.member member (of_decide_eq_true both.2)
  exact same ▸ both.1.related

/-! ## Values of fields -/

theorem elementsOf_related {type : ValueType} {packed : Bool} {field : Field}
    (shape : field.shape = .repeated type packed) {contributions others : List Contribution}
    (each : List.Forall₂ (Contribution.Related relation field) contributions others) :
    List.Forall₂ (relation.holds type) (elementsOf contributions) (elementsOf others) := by
  induction each with
  | nil => exact .nil
  | cons here _ inductionHypothesis =>
    cases here with
    | elements shape' each =>
      cases shape.symm.trans shape'
      exact List.rel_append each inductionHypothesis
    | value _ _ => exact inductionHypothesis
    | content _ => exact inductionHypothesis
    | entry _ _ _ _ => exact inductionHypothesis

theorem contentsOf_related {field : Field} {contributions others : List Contribution}
    (each : List.Forall₂ (Contribution.Related relation field) contributions others) :
    contentsOf contributions = contentsOf others := by
  induction each with
  | nil => rfl
  | cons here _ inductionHypothesis =>
    simp only [contentsOf] at inductionHypothesis ⊢
    cases here <;> simp only [List.filterMap_cons, inductionHypothesis]

theorem valuesOf_related {type : ValueType} {explicit : Bool} {field : Field}
    (shape : field.shape = .singular type explicit) {contributions others : List Contribution}
    (each : List.Forall₂ (Contribution.Related relation field) contributions others) :
    valuesOf contributions = valuesOf others ∧
      ∀ value ∈ valuesOf contributions, Writable pool type value := by
  induction each with
  | nil => exact ⟨rfl, List.forall_mem_nil _⟩
  | cons here _ inductionHypothesis =>
    rcases inductionHypothesis with ⟨same, writable⟩
    simp only [valuesOf] at same writable ⊢
    cases here with
    | value shape' isWritable =>
      cases shape.symm.trans shape'
      simp only [List.filterMap_cons, same]
      exact ⟨trivial, List.forall_mem_cons.mpr ⟨isWritable, same ▸ writable⟩⟩
    | elements _ _ => exact ⟨same, writable⟩
    | content _ => exact ⟨same, writable⟩
    | entry _ _ _ _ => exact ⟨same, writable⟩

theorem insert_related {key : Scalar} {type : ValueType} {entries others : Json.Members}
    (each : List.Forall₂ (MemberRelated relation key type) entries others)
    {one other : String × Json.Value} (related : MemberRelated relation key type one other) :
    List.Forall₂ (MemberRelated relation key type) (entries.insert one.1 one.2)
      (others.insert other.1 other.2) := by
  induction each with
  | nil => exact .cons related .nil
  | cons here rest inductionHypothesis =>
    rename_i entry otherEntry _ _
    rw [Json.Members.insert, Json.Members.insert]
    by_cases known : entry.1 = one.1
    · rw [if_pos known, if_pos (here.same.symm.trans (known.trans related.same))]
      exact .cons related rest
    · have unknown : ¬ otherEntry.1 = other.1 := fun same =>
        known (here.same.trans (same.trans related.same.symm))
      rw [if_neg known, if_neg unknown]
      exact .cons here inductionHypothesis

theorem entriesOf_related {id : MessageId} {entry : Message} {key : Scalar} {type : ValueType}
    {field : Field} (shape : field.shape = .map id) (found : pool.message? id = some entry)
    (fields : entry.fields = [.entryKey key, .entryValue type])
    {contributions others : List Contribution}
    (each : List.Forall₂ (Contribution.Related relation field) contributions others) :
    List.Forall₂ (MemberRelated relation key type) (entriesOf contributions) (entriesOf others) := by
  have general (before otherBefore : Json.Members)
      (related : List.Forall₂ (MemberRelated relation key type) before otherBefore) :
      List.Forall₂ (MemberRelated relation key type) (contributions.foldl addEntry before)
        (others.foldl addEntry otherBefore) := by
    induction each generalizing before otherBefore with
    | nil => exact related
    | cons here _ inductionHypothesis =>
      rw [List.foldl_cons, List.foldl_cons]
      apply inductionHypothesis
      cases here with
      | entry shape' found' fields' here =>
        cases shape.symm.trans shape'
        cases found.symm.trans found'
        cases fields.symm.trans fields'
        exact insert_related related here
      | value _ _ => exact related
      | content _ => exact related
      | elements _ _ => exact related
  exact general [] [] .nil

/-- Two values of a field that are related part by part. -/
inductive FieldRelated (relation : ValueRelation pool) (field : Field) :
    Json.Value → Json.Value → Prop
  | single {type : ValueType} {explicit : Bool} (shape : field.shape = .singular type explicit)
      {one other : Json.Value} (related : relation.holds type one other) :
      FieldRelated relation field one other
  | elements {type : ValueType} {packed : Bool} (shape : field.shape = .repeated type packed)
      {values others : List Json.Value}
      (each : List.Forall₂ (relation.holds type) values others) :
      FieldRelated relation field (.array values) (.array others)
  | entries {id : MessageId} {entry : Message} {key : Scalar} {type : ValueType}
      (shape : field.shape = .map id) (found : pool.message? id = some entry)
      (fields : entry.fields = [.entryKey key, .entryValue type]) {entries others : Json.Members}
      (each : List.Forall₂ (MemberRelated relation key type) entries others) :
      FieldRelated relation field (.object entries) (.object others)

/-- What is shown for a field that is not set, where defaults are shown. -/
inductive IsFilling (pool : Pool) (field : Field) : Json.Value → Prop
  | single {type : ValueType} {explicit : Bool} (shape : field.shape = .singular type explicit)
      (notMessage : type.isMessage = false) (known : pool.HasType type)
      (noPresence : field.hasPresence = false) : IsFilling pool field (renderDefault pool type)
  | elements {type : ValueType} {packed : Bool} (shape : field.shape = .repeated type packed) :
      IsFilling pool field (.array [])
  | entries {id : MessageId} {entry : Message} {key : Scalar} {type : ValueType}
      (shape : field.shape = .map id) (found : pool.message? id = some entry)
      (fields : entry.fields = [.entryKey key, .entryValue type]) :
      IsFilling pool field (.object [])

/-- What two decoders show for a field. -/
inductive ShownRelated (relation : ValueRelation pool) (options others : Options) (field : Field) :
    Option Json.Value → Option Json.Value → Prop
  | absent : ShownRelated relation options others field none none
  | shown {one other : Json.Value} (related : FieldRelated relation field one other) :
      ShownRelated relation options others field (some one) (some other)
  | filled {value : Json.Value} (sparse : options.emitDefaults = false)
      (full : others.emitDefaults = true) (filling : IsFilling pool field value) :
      ShownRelated relation options others field none (some value)

theorem shownRelated_filling (fills : options.emitDefaults = true → others.emitDefaults = true)
    {field : Field} {value : Json.Value} (filling : IsFilling pool field value)
    (related : FieldRelated relation field value value) :
    ShownRelated relation options others field (if options.emitDefaults then some value else none)
      (if others.emitDefaults then some value else none) := by
  cases sparse : options.emitDefaults with
  | true =>
    rw [fills sparse]
    exact .shown related
  | false =>
    cases full : others.emitDefaults with
    | true => exact .filled sparse full filling
    | false => exact .absent

/-- A single value that is no message is the same on both sides, where it is shown. -/
theorem fieldValue_related_simple (wellFormed : pool.WellFormed)
    (fills : options.emitDefaults = true → others.emitDefaults = true) {field : Field}
    {type : ValueType} {explicit : Bool} (shape : field.shape = .singular type explicit)
    (notMessage : type.isMessage = false) (known : pool.HasType type)
    {contributions otherContributions : List Contribution}
    (each : List.Forall₂ (Contribution.Related relation field) contributions otherContributions) :
    Outcome.Related (ShownRelated relation options others field)
      (fieldValue pool options first field contributions)
      (fieldValue pool others second field otherContributions) := by
  rcases valuesOf_related shape each with ⟨sameValues, writable⟩
  have isShown {value : Json.Value} (isWritable : Writable pool type value) :
      FieldRelated relation field value value :=
    .single shape (relation.refl notMessage isWritable)
  rw [fieldValue_of_notMessage shape notMessage, fieldValue_of_notMessage shape notMessage,
    ← sameValues]
  cases presence : field.hasPresence with
  | true =>
    cases last : (valuesOf contributions).getLast? with
    | none =>
      simp only [Bool.not_true, Bool.and_false, Bool.false_eq_true, if_false]
      exact .ok .absent
    | some value =>
      simp only [Bool.not_true, Bool.false_and, Bool.false_eq_true, if_false]
      exact .ok (.shown (isShown (writable value (List.mem_of_getLast? last))))
  | false =>
    have filled : ShownRelated relation options others field
        (if options.emitDefaults then some (renderDefault pool type) else none)
        (if others.emitDefaults then some (renderDefault pool type) else none) :=
      shownRelated_filling fills (.single shape notMessage known presence)
        (isShown (writable_renderDefault known notMessage wellFormed))
    cases last : (valuesOf contributions).getLast? with
    | none =>
      simp only [Bool.not_false, Bool.and_true, ← apply_ite]
      exact .ok filled
    | some value =>
      dsimp only
      cases hidden : isDefault pool type value with
      | false =>
        simp only [Bool.and_false, Bool.false_eq_true, if_false]
        exact .ok (.shown (isShown (writable value (List.mem_of_getLast? last))))
      | true =>
        -- Where it would be left out, it is the default.
        have only (emitDefaults : Bool) :
            (if (!false && !emitDefaults && true) = true then Except.ok none
              else .ok (some value)) = (.ok (if emitDefaults then some (renderDefault pool type)
                else none) : Decoded (Option Json.Value)) := by
          rw [eq_of_isDefault hidden]
          cases emitDefaults <;> rfl
        simp only [only]
        exact .ok filled

/-- What the contributions to a field show is related. -/
theorem fieldValue_related (wellFormed : pool.WellFormed)
    (fills : options.emitDefaults = true → others.emitDefaults = true)
    (below : RelatedBelow relation first second message) {field : Field}
    (member : field ∈ message.fields) (kind : pool.FieldKind field)
    {contributions otherContributions : List Contribution}
    (each : List.Forall₂ (Contribution.Related relation field) contributions otherContributions) :
    Outcome.Related (ShownRelated relation options others field)
      (fieldValue pool options first field contributions)
      (fieldValue pool others second field otherContributions) := by
  cases kind with
  | simple shape notMessage known =>
    exact fieldValue_related_simple wellFormed fills shape notMessage known.hasType each
  | message shape found notEntry =>
    rename_i id explicit next
    have related := below.of_shape member shape ⟨next, found, notEntry⟩
    rw [fieldValue_of_message shape, fieldValue_of_message shape, ← contentsOf_related each]
    split
    · exact .ok .absent
    · exact (inField_related (related id rfl _) _).map fun _ _ here => .shown (.single shape here)
  | «repeated» shape packable known =>
    rw [fieldValue, fieldValue, shape]
    dsimp only
    have elements := elementsOf_related shape each
    generalize elementsOf contributions = values at *
    generalize elementsOf otherContributions = otherValues at *
    cases elements with
    | nil => exact .ok (shownRelated_filling fills (.elements shape) (.elements shape .nil))
    | cons here rest => exact .ok (.shown (.elements shape (.cons here rest)))
  | map shape found fields legal known =>
    rw [fieldValue, fieldValue, shape]
    dsimp only
    have entries := entriesOf_related shape found fields each
    generalize entriesOf contributions = values at *
    generalize entriesOf otherContributions = otherValues at *
    cases entries with
    | nil =>
      exact .ok (shownRelated_filling fills (.entries shape found fields)
        (.entries shape found fields .nil))
    | cons here rest => exact .ok (.shown (.entries shape found fields (.cons here rest)))

/-! ## Messages -/

/-- Either both documents are refused because of the same field, or all fields show something. -/
theorem assemble_related {shows : Field → Option Json.Value → Option Json.Value → Prop}
    {occurrences otherOccurrences : List Occurrence} {fields : List Field}
    (each : ∀ field ∈ fields, Outcome.Related (shows field)
      (fieldValue pool options first field (contributionsTo field occurrences))
      (fieldValue pool others second field (contributionsTo field otherOccurrences)))
    (members otherMembers : Json.Members) :
    Outcome.Related
      (fun _ _ => ∀ field ∈ fields, ∃ shown otherShown,
        fieldValue pool options first field (contributionsTo field occurrences) = .ok shown ∧
        fieldValue pool others second field (contributionsTo field otherOccurrences) =
          .ok otherShown ∧ shows field shown otherShown)
      (assemble pool options first occurrences members fields)
      (assemble pool others second otherOccurrences otherMembers fields) := by
  induction fields generalizing members otherMembers with
  | nil => exact .ok (List.forall_mem_nil _)
  | cons field rest inductionHypothesis =>
    rcases List.forall_mem_cons.mp each with ⟨here, later⟩
    rw [assemble, assemble]
    rcases here.ok_or_error with
      ⟨shown, otherShown, isShown, isShownToo, law⟩ | ⟨refusal, refused, refusedToo⟩
    · have both (members otherMembers : Json.Members) :=
        (inductionHypothesis later members otherMembers).imp fun _ _ laws =>
          List.forall_mem_cons.mpr ⟨⟨shown, otherShown, isShown, isShownToo, law⟩, laws⟩
      rw [isShown, isShownToo]
      cases shown <;> cases otherShown <;> exact both _ _
    · rw [refused, refusedToo]
      exact .error refusal

/-- Of every oneof a document shows one field at most. -/
theorem exclusive_of_shown (wellFormed : message.WellFormed pool)
    {occurrences : List Occurrence}
    (declared : ∀ occurrence ∈ occurrences, occurrence.field ∈ message.fields)
    {shown : Field → Option Json.Value} (values : ∀ field ∈ message.fields,
      fieldValue pool options first field (contributionsTo field occurrences) =
        .ok (shown field)) :
    Exclusive message fun field => (shown field).isSome = true := by
  have given {field : Field} (member : field ∈ message.fields)
      (inOneof : field.oneof.isSome = true) (isSome : (shown field).isSome = true) :
      contributionsTo field occurrences ≠ [] := by
    intro none
    have presence := hasPresence_of_oneof wellFormed member inOneof
    have nothing := values field member
    rw [none, fieldValue_nil_of_presence presence] at nothing
    rw [← Except.ok.inj nothing] at isSome
    cases isSome
  intro one member other otherMember inOneof sameOneof isShown otherShown
  exact exclusive_contributionsTo wellFormed.indexed declared one member other otherMember inOneof
    sameOneof (given member inOneof isShown) (given otherMember (sameOneof ▸ inOneof) otherShown)

/-- In every message that can be reached, the key of each field leads back to the field. -/
def Options.Readable (options : Options) (pool : Pool) (root : Message) : Prop :=
  ∀ message, pool.Reaches root message → ∀ field ∈ message.fields,
    message.fieldByName? (options.key field) = some field

theorem Options.Readable.of_reaches {options : Options} {pool : Pool} {root message : Message}
    (readable : options.Readable pool root) (reached : pool.Reaches root message) :
    options.Readable pool message :=
  fun next further => readable next (reached.trans further)

/-- The names of the schema lead back to the fields. -/
theorem Options.readable_of_names {pool : Pool} (wellFormed : pool.WellFormed) {id : MessageId}
    {message : Message} (there : pool.message? id = some message) (emitDefaults : Bool) :
    Options.Readable ⟨emitDefaults, false⟩ pool message := by
  intro other reached field member
  have held := reached.mem_messages (List.mem_of_getElem? there)
  exact (wellFormed.messages other held).indexed.fieldByName?_of_mem member

/-- So do the names of JSON, where no field takes that of another. -/
theorem Options.readable_of_keysApart {pool : Pool} (wellFormed : pool.WellFormed) {id : MessageId}
    {message : Message} (there : pool.message? id = some message)
    (apart : ∀ other, pool.Reaches message other → other.KeysApart) (emitDefaults : Bool) :
    Options.Readable ⟨emitDefaults, true⟩ pool message := by
  intro other reached
  have held := reached.mem_messages (List.mem_of_getElem? there)
  exact (wellFormed.messages other held).indexed.fieldByName?_jsonName_iff.mpr (apart other reached)

theorem nodup_keys (indexed : message.Indexed) (readable : options.Readable pool message) :
    (message.fields.map options.key).Nodup := by
  refine List.Nodup.map_on (fun one member other otherMember same => ?_) indexed.nodup
  have found := readable message .refl one member
  rw [same, readable message .refl other otherMember] at found
  exact (Option.some.inj found).symm

/-- Two documents of a message that show related values for each field.  On either side the keys are
those of its own style, as long as no two fields have the same key. -/
structure DocumentsRelated (relation : ValueRelation pool) (options others : Options)
    (message : Message) (shown otherShown : Field → Option Json.Value)
    (one other : Json.Value) : Prop where
  isOne : (message.fields.map options.key).Nodup →
    one = .object (membersUnder options.key shown message.fields)
  isOther : (message.fields.map others.key).Nodup →
    other = .object (membersUnder others.key otherShown message.fields)
  each : ∀ field ∈ message.fields,
    ShownRelated relation options others field (shown field) (otherShown field)
  exclusive : Exclusive message fun field => (shown field).isSome = true
  otherExclusive : Exclusive message fun field => (otherShown field).isSome = true

theorem decodeLevel_related (wellFormed : pool.WellFormed)
    (fills : options.emitDefaults = true → others.emitDefaults = true)
    (there : message ∈ pool.messages) (below : RelatedBelow relation first second message)
    (belowEntry : RelatedBelow relation firstEntry secondEntry message) (payload : Bytes) :
    Outcome.Related
      (fun document otherDocument => ∃ shown otherShown,
        DocumentsRelated relation options others message shown otherShown document otherDocument)
      (decodeLevel pool options first firstEntry message payload)
      (decodeLevel pool others second secondEntry message payload) := by
  have facts := wellFormed.messages message there
  refine (readPayload_related (occurrence?_related wellFormed there below belowEntry) _ _).bind
    fun occurrences otherOccurrences related => ?_
  have each : ∀ field ∈ message.fields, Outcome.Related (ShownRelated relation options others field)
      (fieldValue pool options first field (contributionsTo field occurrences))
      (fieldValue pool others second field (contributionsTo field otherOccurrences)) :=
    fun field member => fieldValue_related wellFormed fills below member
      (wellFormed.fieldKind there member) (contributionsTo_related facts.indexed member related)
  rcases (assemble_related each [] []).ok_or_error with
    ⟨members, otherMembers, assembled, otherAssembled, shows⟩ | ⟨refusal, refused, refusedToo⟩
  · have choice (field : Field) : ∃ shown otherShown, field ∈ message.fields →
          fieldValue pool options first field (contributionsTo field occurrences) = .ok shown ∧
          fieldValue pool others second field (contributionsTo field otherOccurrences) =
            .ok otherShown ∧
          ShownRelated relation options others field shown otherShown := by
      by_cases member : field ∈ message.fields
      · rcases shows field member with ⟨shown, otherShown, law⟩
        exact ⟨shown, otherShown, fun _ => law⟩
      · exact ⟨none, none, fun isMember => absurd isMember member⟩
    choose shown otherShown law using choice
    have values := fun field member => (law field member).1
    have otherValues := fun field member => (law field member).2.1
    rcases fields_declared related with ⟨declared, otherDeclared⟩
    rw [assembled, otherAssembled]
    exact .ok ⟨shown, otherShown,
      fun distinct => congrArg _ (eq_membersUnder_of_assemble values distinct assembled),
      fun distinct => congrArg _ (eq_membersUnder_of_assemble otherValues distinct otherAssembled),
      fun field member => (law field member).2.2, exclusive_of_shown facts declared values,
      exclusive_of_shown facts otherDeclared otherValues⟩
  · rw [refused, refusedToo]
    exact .error refusal

/-- Two decoders that refuse alike, and whose documents show related values otherwise, for all
messages that are reached from one. -/
def RelatedDocuments (relation : ValueRelation pool) (options others : Options)
    (first second : Decoder) (root : Message) : Prop :=
  ∀ id message, pool.message? id = some message → message.isMapEntry = false →
    pool.Reaches root message → ∀ payload, Outcome.Related
      (fun document otherDocument => ∃ shown otherShown,
        DocumentsRelated relation options others message shown otherShown document otherDocument)
      (first message payload) (second message payload)

theorem RelatedDocuments.below {root : Message}
    (related : RelatedDocuments relation options others first second root)
    (documents : ∀ id message, pool.message? id = some message → message.isMapEntry = false →
      pool.Reaches root message → ∀ shown otherShown document otherDocument,
        DocumentsRelated relation options others message shown otherShown document otherDocument →
        relation.holds (.message id) document otherDocument) :
    RelatedBelow relation first second root := by
  intro id message found notEntry reached payload
  apply (related id message found notEntry reached payload).imp
  rintro document otherDocument ⟨shown, otherShown, here⟩
  exact documents id message found notEntry reached shown otherShown document otherDocument here

theorem RelatedDocuments.decodeLevel (wellFormed : pool.WellFormed)
    (fills : options.emitDefaults = true → others.emitDefaults = true) {root : Message}
    (below : RelatedBelow relation first second root)
    (belowEntry : RelatedBelow relation firstEntry secondEntry root) :
    RelatedDocuments relation options others (decodeLevel pool options first firstEntry)
      (decodeLevel pool others second secondEntry) root :=
  fun _ _ found _ reached payload => decodeLevel_related wellFormed fills
    (List.mem_of_getElem? found) (below.of_reaches reached) (belowEntry.of_reaches reached) payload

end Related

/-- By induction on the levels.  Messages lose one of them, entries two. -/
theorem decodeWithin_related {pool : Pool} (wellFormed : pool.WellFormed)
    (relation : ValueRelation pool) {options others : Options}
    (fills : options.emitDefaults = true → others.emitDefaults = true) {root : Message}
    (documents : ∀ id message, pool.message? id = some message → message.isMapEntry = false →
      pool.Reaches root message → ∀ shown otherShown document otherDocument,
        DocumentsRelated relation options others message shown otherShown document otherDocument →
        relation.holds (.message id) document otherDocument) (levels : Nat) :
    RelatedDocuments relation options others (decodeWithin pool options levels)
      (decodeWithin pool others levels) root := by
  have refused : RelatedBelow relation refuse refuse root := fun _ _ _ _ _ _ => .error _
  induction levels using decodeWithin.induct with
  | case1 => exact fun _ _ _ _ _ _ => .error _
  | case2 => exact .decodeLevel wellFormed fills refused refused
  | case3 levels below entriesBelow =>
    exact .decodeLevel wellFormed fills (below.below documents) (entriesBelow.below documents)

end SchemaRecords.Payload
