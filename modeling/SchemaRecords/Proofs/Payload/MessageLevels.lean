import SchemaRecords.Proofs.Payload.WritableValues
import SchemaRecords.Proofs.Schema.FieldKinds

/-!
# Levels of messages

A document of a message contains documents of the messages in its fields, and so on.  The levels
of a document are those that a decoder goes through when it reads the payload of the document: one
for the message itself and those of the message below it with the most levels.  The value of a map
entry counts one more, for the entry, and `null` counts as an empty message there.

The encoder has no limit on levels, the decoder has.  Everything else that the encoder writes is
read: so a payload of a document is read by a decoder exactly if the levels of the document are
within its limit, and refused for no other reason than that they are not.
-/

namespace SchemaRecords.Payload

open SchemaRecords.Schema

/-! ## Levels of a document -/

/-- The levels of an entry, from those of its value. -/
def withEntry (levels : Nat) : Nat := if levels = 0 then 0 else levels + 1

/-- The levels of a value of a field, given the levels of what its shape asks for. -/
def shapeLevels (shape : Shape) (single elements : ValueType → Nat) (entries : MessageId → Nat) :
    Nat :=
  match shape with
  | .singular type _ => single type
  | .repeated type _ => elements type
  | .map id => entries id

mutual

/-- The levels of a value of some type. -/
def valueLevels (pool : Pool) (type : ValueType) : Json.Value → Nat
  | .object members =>
    match type with
    | .message id =>
      match pool.message? id with
      | none => 0
      | some message => memberLevels pool message members + 1
    | _ => 0
  | _ => 0

/-- The levels of an array with elements of some type. -/
def elementLevels (pool : Pool) (type : ValueType) : Json.Value → Nat
  | .array items => itemLevels pool type items
  | _ => 0

/-- The most levels of items. -/
def itemLevels (pool : Pool) (type : ValueType) : List Json.Value → Nat
  | [] => 0
  | item :: rest => max (valueLevels pool type item) (itemLevels pool type rest)

/-- The levels of an object with the entries of a map. -/
def mapLevels (pool : Pool) (id : MessageId) : Json.Value → Nat
  | .object entries =>
    match pool.message? id with
    | none => 0
    | some entry =>
      match entry.fields with
      | [_, value] => entryLevels pool value.type entries
      | _ => 0
  | _ => 0

/-- The most levels of entries. -/
def entryLevels (pool : Pool) (type : ValueType) : List (String × Json.Value) → Nat
  | [] => 0
  | (_, item) :: rest =>
    max
      (withEntry
        (if item.isNull then if type.isMessage then 1 else 0 else valueLevels pool type item))
      (entryLevels pool type rest)

/-- The most levels of the members of a message. -/
def memberLevels (pool : Pool) (message : Message) : List (String × Json.Value) → Nat
  | [] => 0
  | (name, value) :: rest =>
    max
      (match message.fieldByName? name with
      | none => 0
      | some field =>
        shapeLevels field.shape (fun type => valueLevels pool type value)
          (fun type => elementLevels pool type value) (fun id => mapLevels pool id value))
      (memberLevels pool message rest)

end

/-- The levels of a document of a message. -/
def documentLevels (pool : Pool) (message : Message) : Json.Value → Nat
  | .object members => memberLevels pool message members + 1
  | _ => 0

/-- The levels of a value of a field. -/
def fieldLevels (pool : Pool) (field : Field) (value : Json.Value) : Nat :=
  shapeLevels field.shape (fun type => valueLevels pool type value)
    (fun type => elementLevels pool type value) (fun id => mapLevels pool id value)

theorem withEntry_le_iff {levels limit : Nat} : withEntry levels ≤ limit ↔ levels ≤ limit - 1 := by
  unfold withEntry
  split <;> omega

section Levels

variable {pool : Pool} {message : Message}

theorem valueLevels_object {id : MessageId} (found : pool.message? id = some message)
    (members : Json.Members) :
    valueLevels pool (.message id) (.object members) = memberLevels pool message members + 1 := by
  simp only [valueLevels, found]

theorem valueLevels_of_notMessage {type : ValueType} (notMessage : type.isMessage = false)
    (value : Json.Value) : valueLevels pool type value = 0 := by
  cases value with
  | object members =>
    cases type with
    | message id => cases notMessage
    | scalar scalar => simp only [valueLevels]
    | enumeration id => simp only [valueLevels]
  | _ => simp only [valueLevels]

theorem itemLevels_le_iff {type : ValueType} {items : List Json.Value} {limit : Nat} :
    itemLevels pool type items ≤ limit ↔ ∀ item ∈ items, valueLevels pool type item ≤ limit := by
  induction items with
  | nil => simp [itemLevels]
  | cons item rest inductionHypothesis =>
    rw [itemLevels, Nat.max_le, inductionHypothesis, List.forall_mem_cons]

/-- The levels of the value of an entry, in which `null` stands for zero. -/
def entryValueLevels (pool : Pool) (type : ValueType) (item : Json.Value) : Nat :=
  if item.isNull then if type.isMessage then 1 else 0 else valueLevels pool type item

theorem entryLevels_le_iff {type : ValueType} {entries : Json.Members} {limit : Nat} :
    entryLevels pool type entries ≤ limit ↔
      ∀ entry ∈ entries, entryValueLevels pool type entry.2 ≤ limit - 1 := by
  induction entries with
  | nil => simp [entryLevels]
  | cons entry rest inductionHypothesis =>
    rcases entry with ⟨key, item⟩
    rw [entryLevels, Nat.max_le, inductionHypothesis, List.forall_mem_cons, withEntry_le_iff]
    rfl

theorem fieldLevels_null (field : Field) : fieldLevels pool field .null = 0 := by
  unfold fieldLevels shapeLevels
  cases field.shape <;> simp only [valueLevels, elementLevels, mapLevels]

theorem memberLevels_le_iff {members : Json.Members} {limit : Nat} :
    memberLevels pool message members ≤ limit ↔
      ∀ given ∈ givenFields message members, fieldLevels pool given.1 given.2 ≤ limit := by
  induction members with
  | nil => simp [memberLevels, givenFields]
  | cons member rest inductionHypothesis =>
    rcases member with ⟨name, value⟩
    rw [memberLevels, Nat.max_le, inductionHypothesis]
    cases found : message.fieldByName? name with
    | none => simp [givenFields, found]
    | some field =>
      change fieldLevels pool field value ≤ limit ∧ _ ↔ _
      cases value with
      | null => simp [givenFields, fieldLevels_null, Json.Value.isNull]
      | _ => simp [givenFields, found, Json.Value.isNull]

end Levels

/-! ## Runs with a limit -/

/-- An error whose reason is that messages are nested too deep. -/
inductive DecodeError.IsTooDeep : DecodeError → Prop
  | here (message : String) : IsTooDeep (.tooDeep message)
  | inField (field : String) {source : DecodeError} (deep : IsTooDeep source) :
      IsTooDeep (.inField field source)

/-- A run that ends well exactly if some condition holds, and is refused only for nesting. -/
structure Bounded {α : Type} (fits : Prop) (run : Decoded α) : Prop where
  succeeds : (∃ value, run = .ok value) ↔ fits
  deep : ∀ refusal, run = .error refusal → refusal.IsTooDeep

namespace Bounded

variable {α β : Type} {fits : Prop} {run : Decoded α}

theorem ok (value : α) (holds : fits) : Bounded fits (.ok value) where
  succeeds := ⟨fun _ => holds, fun _ => ⟨value, rfl⟩⟩
  deep := fun _ impossible => nomatch impossible

theorem error {refusal : DecodeError} (exceeds : ¬ fits) (deep : refusal.IsTooDeep) :
    Bounded fits (.error refusal : Decoded α) where
  succeeds := ⟨fun ⟨_, impossible⟩ => (nomatch impossible), fun holds => absurd holds exceeds⟩
  deep := fun _ same => Except.error.inj same ▸ deep

theorem cases (bounded : Bounded fits run) :
    (∃ value, run = .ok value ∧ fits) ∨
      ∃ refusal, run = .error refusal ∧ ¬ fits ∧ refusal.IsTooDeep := by
  cases outcome : run with
  | ok value => exact Or.inl ⟨value, rfl, bounded.succeeds.mp ⟨value, outcome⟩⟩
  | error refusal =>
    refine Or.inr ⟨refusal, rfl, fun holds => ?_, bounded.deep refusal outcome⟩
    rcases bounded.succeeds.mpr holds with ⟨value, impossible⟩
    cases outcome.symm.trans impossible

theorem congr {other : Prop} (same : fits ↔ other) (bounded : Bounded fits run) :
    Bounded other run :=
  ⟨bounded.succeeds.trans same, bounded.deep⟩

theorem map (bounded : Bounded fits run) (f : α → β) : Bounded fits (run.map f) := by
  rcases bounded.cases with ⟨value, same, holds⟩ | ⟨refusal, same, exceeds, deep⟩
  · exact same ▸ .ok (f value) holds
  · exact same ▸ .error exceeds deep

theorem inField (bounded : Bounded fits run) (field : String) :
    Bounded fits (inField field run) := by
  rcases bounded.cases with ⟨value, same, holds⟩ | ⟨refusal, same, exceeds, deep⟩
  · exact same ▸ .ok value holds
  · exact same ▸ .error exceeds (.inField field deep)

end Bounded

/-- A decoder that reads the payloads of all documents with some number of levels at most. -/
def Limited (pool : Pool) (limit : Nat) (decoder : Decoder) : Prop :=
  ∀ id message, pool.message? id = some message → message.isMapEntry = false →
    ∀ members payload, encodeMembers pool message members = .ok payload →
      payload.length < 2 ^ 32 →
        Bounded (memberLevels pool message members + 1 ≤ limit) (decoder message payload)

theorem limited_refuse (pool : Pool) : Limited pool 0 refuse :=
  fun _ _ _ _ _ _ _ _ => .error (Nat.not_succ_le_zero _) (.here _)

/-! ## Values -/

section Values

variable {pool : Pool} {decoder : Decoder} {type : ValueType} {wire : Wire.Value} {limit : Nat}

/-- Values of types that are no messages are read after they were converted. -/
theorem reads_of_convertSimple (known : pool.HasType type) (notMessage : type.isMessage = false)
    {field : String} {value : Json.Value}
    (converted : convertSimple pool field type value = .ok wire) :
    wire.layout = type.layout ∧ ∃ shown, Reads pool decoder type wire shown := by
  cases type with
  | message id => cases notMessage
  | enumeration id =>
    rcases known with ⟨enumeration, found⟩
    have isVarint : ∃ word, wire = .varint word := by
      simp only [convertSimple, convertEnumeration, found] at converted
      cases value with
      | string name =>
        dsimp only at converted
        split at converted
        · exact ⟨_, (Except.ok.inj converted).symm⟩
        · cases converted
      | number number =>
        rcases Outcome.map_eq_ok_iff.mp converted with ⟨n, _, same⟩
        exact ⟨_, same.symm⟩
      | _ => cases converted
    rcases isVarint with ⟨word, same⟩
    subst same
    exact ⟨rfl, _, fun _ _ => rfl⟩
  | scalar scalar =>
    rcases isSimple_or_float pool scalar with simple | same | same
    · rcases exists_of_convertSimple simple converted with ⟨shown, isShown⟩
      exact ⟨isShown.layout, shown, isShown.reads⟩
    · subst same
      rcases Outcome.map_eq_ok_iff.mp converted with ⟨word, _, same⟩
      subst same
      exact ⟨rfl, _, fun _ _ => rfl⟩
    · subst same
      rcases Outcome.map_eq_ok_iff.mp converted with ⟨x, _, same⟩
      subst same
      exact ⟨rfl, _, fun _ _ => rfl⟩

/-- The zeros of such types are read as well. -/
theorem reads_zero (notMessage : type.isMessage = false) :
    (zero pool type).layout = type.layout ∧
      ∃ shown, Reads pool decoder type (zero pool type) shown := by
  cases type with
  | message id => cases notMessage
  | enumeration id => exact ⟨rfl, _, fun _ _ => rfl⟩
  | scalar scalar =>
    rcases isSimple_or_float pool scalar with simple | same | same
    · exact ⟨(shown_zero simple).layout, _, (shown_zero simple).reads⟩
    · subst same
      exact ⟨rfl, _, fun _ _ => rfl⟩
    · subst same
      exact ⟨rfl, _, fun _ _ => rfl⟩

/-- A value on the wire that is read if some number of levels is within a limit. -/
structure Levelled (pool : Pool) (decoder : Decoder) (limit : Nat) (type : ValueType)
    (levels : Nat) (wire : Wire.Value) : Prop where
  layout : wire.layout = type.layout
  bounded : ∀ message field, ∃ run, readValue? pool decoder message field type wire = some run ∧
    Bounded (levels ≤ limit) run

theorem levelled_of_reads (layout : wire.layout = type.layout) {shown : Json.Value}
    (reads : Reads pool decoder type wire shown) : Levelled pool decoder limit type 0 wire :=
  ⟨layout, fun message field => ⟨_, reads message field, .ok shown (Nat.zero_le limit)⟩⟩

theorem Limited.levelled (limited : Limited pool limit decoder) {id : MessageId} {next : Message}
    (found : pool.message? id = some next) (notEntry : next.isMapEntry = false)
    {members : Json.Members} {payload : Bytes}
    (encoded : encodeMembers pool next members = .ok payload) (short : payload.length < 2 ^ 32) :
    Levelled pool decoder limit (.message id) (memberLevels pool next members + 1)
      (.delimited payload) := by
  refine ⟨rfl, fun message field => ⟨_, rfl, .inField ?_ field⟩⟩
  rw [Decoder.follow, found]
  exact limited id next found notEntry members payload encoded short

/-- Whatever was converted is read if its levels are within the limit. -/
theorem Limited.convert (limited : Limited pool limit decoder) (known : pool.Nameable type)
    {field : String} {value : Json.Value} (converted : convert pool field type value = .ok wire)
    (fits : wire.Fits) : Levelled pool decoder limit type (valueLevels pool type value) wire := by
  cases notMessage : type.isMessage with
  | false =>
    rw [convert_of_notMessage notMessage] at converted
    rw [valueLevels_of_notMessage notMessage]
    rcases reads_of_convertSimple known.hasType notMessage converted with ⟨layout, _, reads⟩
    exact levelled_of_reads layout reads
  | true =>
    cases type with
    | message id =>
      rcases known with ⟨next, found, notEntry⟩
      cases value with
      | object members =>
        rw [convert_object found] at converted
        rcases Outcome.map_eq_ok_iff.mp converted with ⟨payload, encoded, same⟩
        subst same
        rw [valueLevels_object found]
        exact limited.levelled found notEntry encoded fits
      | _ => cases converted
    | scalar scalar => cases notMessage
    | enumeration id => cases notMessage

/-- So is the value of an entry, which may be `null`. -/
theorem Limited.convertEntryValue (limited : Limited pool limit decoder)
    (known : pool.Nameable type) {field : String} {value : Json.Value}
    (converted : (if value.isNull then .ok (zero pool type)
      else Payload.convert pool field type value) = .ok wire)
    (fits : wire.Fits) :
    Levelled pool decoder limit type (entryValueLevels pool type value) wire := by
  unfold entryValueLevels
  by_cases isNull : value.isNull = true
  · rw [if_pos isNull] at converted ⊢
    cases converted
    cases notMessage : type.isMessage with
    | false =>
      rcases reads_zero notMessage with ⟨layout, _, reads⟩
      exact levelled_of_reads layout reads
    | true =>
      cases type with
      | message id =>
        rcases known with ⟨next, found, notEntry⟩
        have empty := limited.levelled found notEntry (encodeMembers_nil pool next) fits
        rw [memberLevels] at empty
        exact empty
      | scalar scalar => cases notMessage
      | enumeration id => cases notMessage
  · rw [if_neg isNull] at converted ⊢
    exact limited.convert known converted fits

end Values

/-! ## Fields -/

/-- Values on the wire of which a field shows something, if some number of levels is within a
limit. -/
structure FieldBounded (pool : Pool) (options : Options) (decoder entryDecoder : Decoder)
    (message : Message) (field : Field) (limit levels : Nat) (wires : List Wire.Value) :
    Prop where
  runs : ∀ wire ∈ wires, ∃ run, contribution? pool decoder entryDecoder message field wire =
    some run ∧ ∀ refusal, run = .error refusal → refusal.IsTooDeep
  deep : ∀ refusal, fieldValue pool options decoder field
    (contributionsOf pool decoder entryDecoder message field wires) = .error refusal →
      refusal.IsTooDeep
  succeeds : (Contribute pool decoder entryDecoder message field wires ∧
    ∃ shown, fieldValue pool options decoder field
      (contributionsOf pool decoder entryDecoder message field wires) = .ok shown) ↔
        levels ≤ limit

section Fields

variable {pool : Pool} {options : Options} {decoder entryDecoder : Decoder} {message : Message}
  {field : Field} {limit levels : Nat} {wires : List Wire.Value}

/-- Only a single message is decoded after all records were read. -/
theorem exists_fieldValue
    (notSingle : ∀ id explicit, field.shape ≠ .singular (.message id) explicit)
    (contributions : List Contribution) :
    ∃ shown, fieldValue pool options decoder field contributions = .ok shown := by
  unfold fieldValue
  cases shape : field.shape with
  | singular type explicit =>
    cases type with
    | message id => exact absurd shape (notSingle id explicit)
    | _ =>
      dsimp only
      repeat' split
      all_goals exact ⟨_, rfl⟩
  | «repeated» type packed =>
    dsimp only
    split
    all_goals exact ⟨_, rfl⟩
  | map id =>
    dsimp only
    split
    all_goals exact ⟨_, rfl⟩

theorem fieldValue_ne_error
    (notSingle : ∀ id explicit, field.shape ≠ .singular (.message id) explicit)
    {contributions : List Contribution} {refusal : DecodeError}
    (refused : fieldValue pool options decoder field contributions = .error refusal) : False := by
  have shows : ∃ shown, fieldValue pool options decoder field contributions = .ok shown :=
    exists_fieldValue notSingle contributions
  rw [refused] at shows
  rcases shows with ⟨_, impossible⟩
  cases impossible

/-- A field whose values are all read has no levels. -/
theorem fieldBounded_of_contribute
    (notSingle : ∀ id explicit, field.shape ≠ .singular (.message id) explicit)
    (contribute : Contribute pool decoder entryDecoder message field wires) :
    FieldBounded pool options decoder entryDecoder message field limit 0 wires where
  runs := by
    intro wire member
    rcases contribute wire member with ⟨contribution, given⟩
    exact ⟨_, given, fun _ impossible => nomatch impossible⟩
  deep := fun _ refused => (fieldValue_ne_error notSingle refused).elim
  succeeds := ⟨fun _ => Nat.zero_le limit, fun _ => ⟨contribute, exists_fieldValue notSingle _⟩⟩

/-- A field whose values come from elements that are each read within a limit. -/
theorem fieldBounded_of_forall₂ {α : Type} {fits : α → Prop} {elements : List α}
    (notSingle : ∀ id explicit, field.shape ≠ .singular (.message id) explicit)
    (each : List.Forall₂ (fun element wire => ∃ run,
      contribution? pool decoder entryDecoder message field wire = some run ∧
        Bounded (fits element) run) elements wires)
    (within : (∀ element ∈ elements, fits element) ↔ levels ≤ limit) :
    FieldBounded pool options decoder entryDecoder message field limit levels wires where
  runs := by
    intro wire member
    rcases exists_source each wire member with ⟨_, _, run, given, bounded⟩
    exact ⟨run, given, bounded.deep⟩
  deep := fun _ refused => (fieldValue_ne_error notSingle refused).elim
  succeeds := by
    have all : Contribute pool decoder entryDecoder message field wires ↔
        ∀ element ∈ elements, fits element := by
      clear within
      unfold Contribute
      induction each with
      | nil => exact iff_of_true (List.forall_mem_nil _) (List.forall_mem_nil _)
      | cons first _ inductionHypothesis =>
        rcases first with ⟨run, given, bounded⟩
        rw [List.forall_mem_cons, List.forall_mem_cons, inductionHypothesis, ← bounded.succeeds,
          given]
        simp only [Option.some.injEq]
    rw [← within, ← all]
    exact and_iff_left (exists_fieldValue notSingle _)

/-- Nothing is written for a field that is not set. -/
theorem fieldBounded_nil :
    FieldBounded pool options decoder entryDecoder message field limit 0 [] := by
  have isShown : ∃ shown, fieldValue pool options decoder field [] = .ok shown := by
    by_cases single : ∃ id explicit, field.shape = .singular (.message id) explicit
    · rcases single with ⟨id, explicit, shape⟩
      rw [fieldValue, shape]
      exact ⟨none, rfl⟩
    · exact exists_fieldValue (fun id explicit shape => single ⟨id, explicit, shape⟩) []
  refine ⟨List.forall_mem_nil _, fun refusal refused => ?_, fun _ => Nat.zero_le limit, fun _ => ?_⟩
  · rcases isShown with ⟨shown, same⟩
    cases refused.symm.trans same
  · exact ⟨List.forall_mem_nil _, isShown⟩

/-- A value of a field is written as values from which it is shown, if its levels are within a
limit. -/
def FieldLimited (pool : Pool) (options : Options) (decoder entryDecoder : Decoder)
    (message : Message) (field : Field) (limit : Nat) (given : Json.Value)
    (wires : List Wire.Value) : Prop :=
  valueRecords pool field given = .ok (writtenValues field wires) ∧
    ((∀ wire ∈ wires, wire.Fits) → FieldBounded pool options decoder entryDecoder message field
      limit (fieldLevels pool field given) wires)

theorem exists_fieldLimited_simple {type : ValueType} {explicit : Bool}
    (shape : field.shape = .singular type explicit) (notMessage : type.isMessage = false)
    (known : pool.HasType type) {given : Json.Value} {records : Bytes}
    (written : valueRecords pool field given = .ok records) :
    ∃ wires, FieldLimited pool options decoder entryDecoder message field limit given wires := by
  rcases exists_of_valueRecords_single shape written with ⟨wire, converted, isWritten⟩
  rw [convert_of_notMessage notMessage] at converted
  rcases reads_of_convertSimple known notMessage converted with ⟨_, shown, reads⟩
  have notSingle : ∀ id explicit, field.shape ≠ .singular (.message id) explicit := by
    intro id explicit isMessage
    cases shape.symm.trans isMessage
    cases notMessage
  have none : fieldLevels pool field given = 0 := by
    rw [fieldLevels, shape]
    exact valueLevels_of_notMessage notMessage given
  refine ⟨_, isWritten, fun _ => none ▸ fieldBounded_of_contribute notSingle ?_⟩
  intro other member
  have isWire : other = wire := by
    split at member
    · cases member
    · exact List.mem_singleton.mp member
  refine ⟨.value shown, ?_⟩
  rw [isWire, contribution?_of_notMessage shape notMessage, reads]
  rfl

theorem Limited.exists_fieldLimited_message (limited : Limited pool limit decoder)
    {id : MessageId} {explicit : Bool} (shape : field.shape = .singular (.message id) explicit)
    {next : Message} (found : pool.message? id = some next) (notEntry : next.isMapEntry = false)
    {given : Json.Value} {records : Bytes}
    (written : valueRecords pool field given = .ok records) :
    ∃ wires, FieldLimited pool options decoder entryDecoder message field limit given wires := by
  rcases exists_of_valueRecords_single shape written with ⟨wire, converted, isWritten⟩
  rw [hasPresence_of_message shape] at isWritten
  have levels : fieldLevels pool field given = valueLevels pool (.message id) given := by
    rw [fieldLevels, shape]
    rfl
  have layout : ∃ content, wire = .delimited content := by
    cases given with
    | object members =>
      rw [convert_object found] at converted
      rcases Outcome.map_eq_ok_iff.mp converted with ⟨payload, _, same⟩
      exact ⟨payload, same.symm⟩
    | _ => cases converted
  rcases layout with ⟨content, same⟩
  subst same
  refine ⟨[.delimited content], isWritten, fun fits => ?_⟩
  have given : List.Forall₂ (fun wire contribution =>
      contribution? pool decoder entryDecoder message field wire = some (.ok contribution))
      [.delimited content] [.content content] := forall₂_content shape content
  have contribute : Contribute pool decoder entryDecoder message field [.delimited content] :=
    .of_forall₂ given
  have isShown : fieldValue pool options decoder field (contributionsOf pool decoder entryDecoder
      message field [.delimited content]) =
        (inField field.name (decoder.follow pool id content)).map some := by
    rw [contributionsOf_eq given, fieldValue_oneContent shape found, Decoder.follow, found]
  have known : pool.Nameable (.message id) := ⟨next, found, notEntry⟩
  rcases (limited.convert known converted (fits _ List.mem_cons_self)).bounded "" field.name with
    ⟨run, isRun, bounded⟩
  have isFollowed := Option.some.inj isRun
  have shownBounded := bounded.map some
  rw [← isFollowed, ← isShown] at shownBounded
  refine ⟨?_, shownBounded.deep, ?_⟩
  · intro wire member
    rcases contribute wire member with ⟨contribution, isGiven⟩
    refine ⟨_, isGiven, fun refusal impossible => ?_⟩
    cases impossible
  · rw [levels, ← shownBounded.succeeds]
    exact and_iff_right contribute

theorem Limited.exists_fieldLimited_repeated (limited : Limited pool limit decoder)
    {type : ValueType} {packed : Bool} (shape : field.shape = .repeated type packed)
    (packable : packed = true → type.isPackable = true) (known : pool.Nameable type)
    {given : Json.Value} {records : Bytes}
    (written : valueRecords pool field given = .ok records) :
    ∃ wires, FieldLimited pool options decoder entryDecoder message field limit given wires := by
  have notSingle : ∀ id explicit, field.shape ≠ .singular (.message id) explicit := by
    intro id explicit isMessage
    cases shape.symm.trans isMessage
  rw [valueRecords, fieldRecords, shape] at written
  rcases Outcome.map_eq_ok_iff.mp written with ⟨wires, converted, _⟩
  have isWritten : valueRecords pool field given =
      .ok (writtenValues field (blocks packed wires)) := by
    rw [valueRecords, fieldRecords, shape]
    simp only [converted, repeatedRecords_ok]
  refine ⟨blocks packed wires, isWritten, fun fits => ?_⟩
  cases given with
  | array items =>
    have levels : fieldLevels pool field (.array items) = itemLevels pool type items := by
      rw [fieldLevels, shape]
      simp only [shapeLevels, elementLevels]
    rw [levels]
    have each := forall₂_of_convertItems converted
    cases notMessage : type.isMessage with
    | false =>
      have read : ∀ wire ∈ wires, wire.layout = type.layout ∧
          ∃ shown, Reads pool decoder type wire shown := by
        intro wire member
        rcases exists_source each wire member with ⟨item, _, itemConverted⟩
        rw [convert_of_notMessage notMessage] at itemConverted
        exact reads_of_convertSimple known.hasType notMessage itemConverted
      have none : itemLevels pool type items = 0 := Nat.le_zero.mp (itemLevels_le_iff.mpr
        fun item _ => Nat.le_of_eq (valueLevels_of_notMessage notMessage item))
      rcases exists_forall₂ fun wire member => (read wire member).2 with ⟨values, reads⟩
      rw [none]
      exact fieldBounded_of_contribute notSingle
        (elementsOf_blocks shape packable (fun wire member => (read wire member).1) reads).1
    | true =>
      have single : blocks packed wires = wires := by
        rw [blocks, if_neg]
        intro both
        rw [isMessage_of_isPackable (packable both.1)] at notMessage
        cases notMessage
      rw [single] at fits ⊢
      refine fieldBounded_of_forall₂ notSingle (forall₂_imp_of_mem ?_ each) itemLevels_le_iff.symm
      intro item _ wire member itemConverted
      have levelled := limited.convert known itemConverted (fits wire member)
      rcases levelled.bounded message.fullName field.name with ⟨run, isRun, bounded⟩
      refine ⟨_, ?_, bounded.map fun element => .elements [element]⟩
      rw [contribution?_element shape levelled.layout, isRun]
      rfl
  | _ => cases converted

theorem Limited.exists_fieldLimited_map (limited : Limited pool (limit - 1) entryDecoder)
    {id : MessageId} {entry : Message} {key : Scalar} {type : ValueType}
    (shape : field.shape = .map id) (found : pool.message? id = some entry)
    (fields : entry.fields = [.entryKey key, .entryValue type]) (legal : key.isMapKey = true)
    (known : pool.Nameable type) {given : Json.Value} {records : Bytes}
    (written : valueRecords pool field given = .ok records) :
    ∃ wires, FieldLimited pool options decoder entryDecoder message field limit given wires := by
  have notSingle : ∀ id explicit, field.shape ≠ .singular (.message id) explicit := by
    intro id explicit isMessage
    cases shape.symm.trans isMessage
  rw [valueRecords, fieldRecords, shape] at written
  rcases Outcome.map_eq_ok_iff.mp written with ⟨contents, converted, _⟩
  have isWritten : valueRecords pool field given =
      .ok (writtenValues field (contents.map .delimited)) := by
    rw [valueRecords, fieldRecords, shape]
    simp only [converted, entryRecords_ok]
  refine ⟨contents.map .delimited, isWritten, fun fits => ?_⟩
  cases given with
  | object entries =>
    have levels : fieldLevels pool field (.object entries) = entryLevels pool type entries := by
      rw [fieldLevels, shape]
      simp only [shapeLevels, mapLevels, found, fields]
      rfl
    simp only [convertMap, found, fields] at converted
    rw [levels]
    refine fieldBounded_of_forall₂ notSingle ?_ entryLevels_le_iff.symm
    rw [List.forall₂_map_right_iff]
    apply forall₂_imp_of_mem _ (forall₂_of_convertEntries converted)
    rintro item _ content there ⟨first, second, keyConverted, valueConverted, same⟩
    subst same
    rcases fits_of_entryContent (fits _ (List.mem_map_of_mem there)) with ⟨firstFits, secondFits⟩
    rcases exists_of_convertKey legal keyConverted with ⟨keyShown, shown, _⟩
    rcases (limited.convertEntryValue known valueConverted secondFits).bounded entry.fullName
      "value" with ⟨run, isRun, bounded⟩
    refine ⟨_, ?_, ((bounded.map fun value => (keyText keyShown, value)).map
      fun member => Contribution.entry member.1 member.2).inField field.name⟩
    rw [contribution?.eq_def, shape]
    simp only [decodeEntryAt, found,
      decodeEntry_entryContent fields firstFits secondFits shown isRun]
  | _ => cases converted

/-- Whatever a document gives a field is shown again if its levels are within the limit. -/
theorem exists_fieldLimited (limited : Limited pool limit decoder)
    (limitedEntry : Limited pool (limit - 1) entryDecoder) (kind : pool.FieldKind field)
    {given : Json.Value} {records : Bytes}
    (written : valueRecords pool field given = .ok records) :
    ∃ wires, FieldLimited pool options decoder entryDecoder message field limit given wires := by
  cases kind with
  | simple shape notMessage known =>
    exact exists_fieldLimited_simple shape notMessage known.hasType written
  | message shape found notEntry =>
    exact limited.exists_fieldLimited_message shape found notEntry written
  | «repeated» shape packable known =>
    exact limited.exists_fieldLimited_repeated shape packable known written
  | map shape found fields legal known =>
    exact limitedEntry.exists_fieldLimited_map shape found fields legal known written

end Fields

/-! ## Messages -/

section Messages

variable {pool : Pool} {options : Options} {decoder entryDecoder : Decoder} {message : Message}

theorem exists_of_readRecords_error {α : Type} {interpret : Wire.Record → Option (Decoded α)}
    {records : List Wire.Record} {refusal : DecodeError}
    (refused : readRecords interpret records = .error refusal) :
    ∃ record ∈ records, interpret record = some (.error refusal) := by
  induction records with
  | nil => cases refused
  | cons record rest inductionHypothesis =>
    simp only [readRecords] at refused
    split at refused
    · rcases inductionHypothesis refused with ⟨other, there, isRefused⟩
      exact ⟨other, List.mem_cons_of_mem _ there, isRefused⟩
    · rename_i isRefused
      cases refused
      exact ⟨record, List.mem_cons_self, isRefused⟩
    · split at refused
      · rename_i later
        cases refused
        rcases inductionHypothesis later with ⟨other, there, isRefused⟩
        exact ⟨other, List.mem_cons_of_mem _ there, isRefused⟩
      · cases refused

theorem exists_of_assemble_error {occurrences : List Occurrence} {fields : List Field}
    {members : Json.Members} {refusal : DecodeError}
    (refused : assemble pool options decoder occurrences members fields = .error refusal) :
    ∃ field ∈ fields, fieldValue pool options decoder field (contributionsTo field occurrences) =
      .error refusal := by
  induction fields generalizing members with
  | nil => cases refused
  | cons field rest inductionHypothesis =>
    simp only [assemble] at refused
    split at refused
    · rename_i isRefused
      cases refused
      exact ⟨field, List.mem_cons_self, isRefused⟩
    · rcases inductionHypothesis refused with ⟨other, there, isRefused⟩
      exact ⟨other, List.mem_cons_of_mem _ there, isRefused⟩
    · rcases inductionHypothesis refused with ⟨other, there, isRefused⟩
      exact ⟨other, List.mem_cons_of_mem _ there, isRefused⟩

/-- A message can be assembled exactly if all its fields show something. -/
theorem exists_assemble_iff {occurrences : List Occurrence} {fields : List Field}
    {members : Json.Members} :
    (∃ result, assemble pool options decoder occurrences members fields = .ok result) ↔
      ∀ field ∈ fields, ∃ shown,
        fieldValue pool options decoder field (contributionsTo field occurrences) = .ok shown := by
  constructor
  · rintro ⟨result, assembled⟩
    exact exists_of_assemble assembled
  · intro values
    cases outcome : assemble pool options decoder occurrences members fields with
    | ok result => exact ⟨result, rfl⟩
    | error refusal =>
      rcases exists_of_assemble_error outcome with ⟨field, there, refused⟩
      rcases values field there with ⟨shown, isShown⟩
      cases refused.symm.trans isShown

section Level

variable (indexed : message.Indexed) {limit : Nat} {levels : Field → Nat}
  {wires : Field → List Wire.Value}
  (fits : ∀ field ∈ message.fields, ∀ wire ∈ wires field, wire.Fits)
  (fields : ∀ field ∈ message.fields, FieldBounded pool options decoder entryDecoder message
    field limit (levels field) (wires field))
include indexed fits fields

/-- Records that were written field by field are refused only for nesting. -/
theorem isTooDeep_of_readPayload {refusal : DecodeError}
    (refused : readPayload message.fullName (occurrence? pool decoder entryDecoder message)
      (writtenFields message wires) = .error refusal) : refusal.IsTooDeep := by
  have whole := Wire.Record.split_encodeAll (isNumber_of_mem indexed) (fits_of_mem fits)
  rw [writtenFields, readPayload, whole] at refused
  dsimp only at refused
  split at refused
  · rename_i isRefused
    cases refused
    rcases exists_of_readRecords_error isRefused with ⟨record, member, given⟩
    rcases List.mem_map.mp member with ⟨pair, isRecord, same⟩
    rcases mem_recordsByNumber.mp isRecord with ⟨field, there, wire, isWritten, pairSame⟩
    subst pairSame same
    rcases (fields field there).runs wire isWritten with ⟨run, isRun, deep⟩
    rw [occurrence?_written indexed there, isRun] at given
    cases run with
    | ok contribution => cases given
    | error other =>
      cases given
      exact deep _ rfl
  · cases refused

/-- A payload that was written field by field is read if the levels of all fields are within the
limit. -/
theorem bounded_decodeLevel (exclusive : Exclusive message fun field => wires field ≠ []) :
    Bounded (∀ field ∈ message.fields, levels field ≤ limit)
      (decodeLevel pool options decoder entryDecoder message (writtenFields message wires)) := by
  have never : ∀ field ∈ message.fields, ∀ wire ∈ wires field,
      contribution? pool decoder entryDecoder message field wire ≠ none := by
    intro field member wire isWire missing
    rcases (fields field member).runs wire isWire with ⟨run, given, _⟩
    rw [missing] at given
    cases given
  have contributions {field : Field} (member : field ∈ message.fields) :
      contributionsTo field (writtenOccurrences pool decoder entryDecoder message wires) =
        contributionsOf pool decoder entryDecoder message field (wires field) :=
    contributionsTo_writtenOccurrences indexed exclusive member
  constructor
  · constructor
    · rintro ⟨document, decoded⟩ field member
      rcases decodeLevel_eq_ok_iff.mp decoded with ⟨occurrences, read, members, assembled, _⟩
      have contribute := contribute_of_readPayload indexed fits read never
      have isWritten := Except.ok.inj
        (read.symm.trans (readPayload_writtenFields indexed fits contribute))
      rcases exists_of_assemble assembled field member with ⟨shown, isShown⟩
      rw [isWritten, contributions member] at isShown
      exact (fields field member).succeeds.mp ⟨contribute field member, shown, isShown⟩
    · intro within
      have each (field : Field) (member : field ∈ message.fields) :=
        (fields field member).succeeds.mpr (within field member)
      have read := readPayload_writtenFields indexed fits fun field member => (each field member).1
      rcases exists_assemble_iff.mpr fun field member =>
        (contributions member).symm ▸ (each field member).2 with ⟨members, assembled⟩
      exact ⟨_, decodeLevel_eq_ok_iff.mpr ⟨_, read, members, assembled, rfl⟩⟩
  · intro refusal refused
    cases read : readPayload message.fullName (occurrence? pool decoder entryDecoder message)
        (writtenFields message wires) with
    | error other =>
      rw [decodeLevel, read] at refused
      cases refused
      exact isTooDeep_of_readPayload indexed fits fields read
    | ok occurrences =>
      have contribute := contribute_of_readPayload indexed fits read never
      have isWritten := Except.ok.inj
        (read.symm.trans (readPayload_writtenFields indexed fits contribute))
      cases assembled : assemble pool options decoder occurrences [] message.fields with
      | ok members =>
        rw [decodeLevel_eq_ok_iff.mpr ⟨_, read, members, assembled, rfl⟩] at refused
        cases refused
      | error other =>
        simp only [decodeLevel, read, assembled, bind, Except.bind] at refused
        cases refused
        rcases exists_of_assemble_error assembled with ⟨field, member, isRefused⟩
        rw [isWritten, contributions member] at isRefused
        exact (fields field member).deep _ isRefused

end Level

/-- A level reads documents with one level more than the level below it, which has one level more
than the one that reads the values of entries. -/
theorem Limited.decodeLevel (wellFormed : pool.WellFormed) {limit : Nat}
    (limited : Limited pool limit decoder) (limitedEntry : Limited pool (limit - 1) entryDecoder) :
    Limited pool (limit + 1) (decodeLevel pool options decoder entryDecoder) := by
  intro id message found _ members payload encoded short
  have there : message ∈ pool.messages := List.mem_of_getElem? found
  have indexed := (wellFormed.messages message there).indexed
  rcases exists_of_encodeMembers indexed encoded with ⟨given, facts, exclusive, every, whole⟩
  have each (field : Field) (value : Json.Value) (isGiven : given field = some value) :
      ∃ wires, FieldLimited pool options decoder entryDecoder message field limit value wires := by
    rcases facts field value isGiven with ⟨member, _, _, records, written⟩
    exact exists_fieldLimited limited limitedEntry (wellFormed.fieldKind there member) written
  rcases exists_wires_of_held each with ⟨wires, absent, fields⟩
  have isPayload := whole wires (fun field value isGiven => (fields field value isGiven).1) absent
  subst isPayload
  have fits := fits_of_length_writtenFields short
  have within : (∀ field ∈ message.fields, (given field).elim 0 (fieldLevels pool field) ≤ limit) ↔
      memberLevels pool message members + 1 ≤ limit + 1 := by
    rw [Nat.succ_le_succ_iff, memberLevels_le_iff]
    constructor
    · rintro bound ⟨field, value⟩ member
      have isGiven := every field value member
      have here := bound field (facts field value isGiven).1
      rwa [isGiven] at here
    · intro bound field member
      cases isGiven : given field with
      | none => exact Nat.zero_le limit
      | some value =>
        rcases facts field value isGiven with ⟨_, notNull, named, _⟩
        exact bound (field, value) (mem_givenFields.mpr ⟨notNull, named⟩)
  apply Bounded.congr within
  apply bounded_decodeLevel indexed fits
  · intro field member
    cases isGiven : given field with
    | none =>
      rw [absent field isGiven]
      exact fieldBounded_nil
    | some value => exact (fields field value isGiven).2 (fits field member)
  · apply exclusive.imp
    intro field _ some
    cases isGiven : given field with
    | none => exact absurd (absent field isGiven) some
    | some value => rfl

/-- By induction on the levels.  Messages lose one of them, entries two. -/
theorem limited_decodeWithin (wellFormed : pool.WellFormed) (limit : Nat) :
    Limited pool limit (decodeWithin pool options limit) := by
  induction limit using decodeWithin.induct with
  | case1 => exact limited_refuse pool
  | case2 => exact Limited.decodeLevel wellFormed (limited_refuse pool) (limited_refuse pool)
  | case3 levels below entriesBelow => exact Limited.decodeLevel wellFormed below entriesBelow

end Messages

end SchemaRecords.Payload
