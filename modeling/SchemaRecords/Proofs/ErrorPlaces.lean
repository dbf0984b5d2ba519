import SchemaRecords.Proofs.Payload.MessageLevels
import SchemaRecords.Proofs.Schema.FieldKinds
import SchemaRecords.Proofs.Schema.GivenCharacters
import SchemaRecords.Proofs.Schema.LinkedUnits

/-!
# Places of errors

An error that arises inside a field is wrapped with the name of the field, once for each level.  So
the names lead from the message that is decoded to the one that the innermost error is about: from a
message through a field to the message of this field, and through a map to the message of its
entries.

The value of a map entry is the exception where it is missing.  A missing message is decoded from no
bytes, which is refused only if the entry lies so deep that no message may lie inside of it.  This
refusal is not wrapped with the name of the value, so its names end at the entry, one name in front
of the message that is reported.
-/

namespace SchemaRecords
namespace Payload

open SchemaRecords.Schema

/-! ## Names and messages of errors -/

/-- The names of the fields that an error is in, the outermost first. -/
def DecodeError.fields : DecodeError → List String
  | .inField field source => field :: source.fields
  | _ => []

/-- What went wrong in the innermost of these fields. -/
def DecodeError.innermost : DecodeError → DecodeError
  | .inField _ source => source.innermost
  | error => error

/-- The full name of the message that the innermost error is about. -/
def DecodeError.reported? (error : DecodeError) : Option String :=
  match error.innermost with
  | .wire message _ => some message
  | .invalidText message _ => some message
  | .tooDeep message => some message
  | .malformedEntry entry => some entry
  | _ => none

/-- The message behind a field of some name, which for a map is that of its entries. -/
def Pool.messageBehind? (pool : Pool) (message : Message) (name : String) : Option Message :=
  (message.fields.find? fun field => field.name = name).bind fun field =>
    match field.type with
    | .message id => pool.message? id
    | _ => none

/-- The message at which a chain of names of fields ends. -/
def Pool.chainEnd? (pool : Pool) (message : Message) : (names : List String) → Option Message
  | [] => some message
  | name :: rest => (messageBehind? pool message name).bind fun next => chainEnd? pool next rest

theorem messageBehind?_of_mem {pool : Pool} {message next : Message} {field : Field}
    {id : MessageId} (indexed : message.Indexed) (member : field ∈ message.fields)
    (isMessage : field.type = .message id) (found : pool.message? id = some next) :
    Pool.messageBehind? pool message field.name = some next := by
  have isField : message.fields.find? (fun other => other.name = field.name) = some field := by
    cases result : message.fields.find? fun other => other.name = field.name with
    | none =>
      have missing := List.find?_eq_none.mp result field member
      exact absurd (decide_eq_true rfl) missing
    | some other =>
      have same : other.name = field.name := by simpa using List.find?_some result
      rw [List.inj_on_of_nodup_map indexed.namesDistinct (List.mem_of_find?_eq_some result) member
        same]
  rw [Pool.messageBehind?, isField, Option.bind_some, isMessage]
  exact found

/-! ## Where errors are placed -/

/-- The names of an error lead to the message that it reports, or to a map entry that lies too deep
for the message that should be its value, where some levels were left at the start. -/
inductive Placed (pool : Pool) (levels : Nat) (message : Message) (error : DecodeError) : Prop
  | named {last : Message} (chain : Pool.chainEnd? pool message error.fields = some last)
      (reported : error.reported? = some last.fullName) : Placed pool levels message error
  | missing {entry last : Message} (chain : Pool.chainEnd? pool message error.fields = some entry)
      (isEntry : entry.isMapEntry = true)
      (value : Pool.messageBehind? pool entry "value" = some last)
      (tooDeep : error.innermost = .tooDeep last.fullName)
      (deep : levels ≤ error.fields.length + 1) : Placed pool levels message error

/-- The errors of a decoder for some levels are placed.  It never refuses an empty payload, unless
it has no level. -/
structure PlacesErrors (pool : Pool) (levels : Nat) (decoder : Decoder) : Prop where
  placed : ∀ id message payload error, pool.message? id = some message →
    decoder message payload = .error error → Placed pool levels message error
  empty : ∀ message error, decoder message [] = .error error →
    levels = 0 ∧ error = .tooDeep message.fullName

section Places

variable {pool : Pool} {options : Options} {decoder entryDecoder : Decoder} {levels : Nat}
  {message : Message} {field : Field}

theorem Placed.mono {fewer : Nat} (within : fewer ≤ levels) {error : DecodeError}
    (placed : Placed pool levels message error) : Placed pool fewer message error := by
  cases placed with
  | named chain reported => exact .named chain reported
  | missing chain isEntry value tooDeep deep =>
    exact .missing chain isEntry value tooDeep (Nat.le_trans within deep)

/-- An error about the message itself is in none of its fields. -/
theorem placed_self {error : DecodeError} (fields : error.fields = [])
    (reported : error.reported? = some message.fullName) : Placed pool levels message error :=
  .named (by rw [fields]; rfl) reported

/-- An error in the message of a field is one level further out in the message with this field. -/
theorem Placed.inField {next : Message} {id : MessageId} (indexed : message.Indexed)
    (member : field ∈ message.fields) (isMessage : field.type = .message id)
    (found : pool.message? id = some next) {source : DecodeError}
    (placed : Placed pool levels next source) :
    Placed pool (levels + 1) message (.inField field.name source) := by
  have step {last : Message} (chain : Pool.chainEnd? pool next source.fields = some last) :
      Pool.chainEnd? pool message (DecodeError.inField field.name source).fields = some last := by
    rw [DecodeError.fields, Pool.chainEnd?, messageBehind?_of_mem indexed member isMessage found]
    exact chain
  cases placed with
  | named chain reported => exact .named (step chain) reported
  | missing chain isEntry value tooDeep deep =>
    exact .missing (step chain) isEntry value tooDeep (Nat.succ_le_succ deep)

theorem inField_eq_error {α : Type} {name : String} {run : Decoded α} {error : DecodeError}
    (failed : inField name run = .error error) :
    ∃ source, run = .error source ∧ error = .inField name source := by
  cases run with
  | ok value => cases failed
  | error source =>
    cases failed
    exact ⟨source, rfl, rfl⟩

theorem placesErrors_refuse (pool : Pool) : PlacesErrors pool 0 refuse where
  placed := by
    rintro id message payload error _ ⟨⟩
    exact placed_self rfl rfl
  empty := by
    rintro message error ⟨⟩
    exact ⟨rfl, rfl⟩

/-! ## Values and records -/

/-- An error of the message that a field refers to is placed behind the name of the field. -/
theorem PlacesErrors.follow (places : PlacesErrors pool levels decoder)
    (wellFormed : pool.WellFormed) (there : message ∈ pool.messages)
    (member : field ∈ message.fields) {id : MessageId} (isMessage : field.type = .message id)
    {payload : Bytes} {source : DecodeError}
    (failed : decoder.follow pool id payload = .error source) :
    Placed pool (levels + 1) message (.inField field.name source) := by
  have facts := wellFormed.messages message there
  have known := facts.types field member
  rw [isMessage] at known
  rcases known with ⟨next, found⟩
  rw [Decoder.follow, found] at failed
  exact (places.placed id next payload source found failed).inField facts.indexed member isMessage
    found

/-- Reading a value fails in the message of its field, or because of a text in the message itself. -/
theorem PlacesErrors.readValue? (places : PlacesErrors pool levels decoder)
    (wellFormed : pool.WellFormed) (there : message ∈ pool.messages)
    (member : field ∈ message.fields) {value : Wire.Value} {error : DecodeError}
    (failed : readValue? pool decoder message.fullName field.name field.type value =
      some (.error error)) : Placed pool (levels + 1) message error := by
  unfold Payload.readValue? at failed
  split at failed
  · rename_i id content isMessage
    rcases inField_eq_error (Option.some.inj failed) with ⟨source, refused, rfl⟩
    exact places.follow wellFormed there member isMessage refused
  · split at failed
    · cases failed
    · cases failed
      exact placed_self rfl rfl
  · cases failed
  · rcases Option.map_eq_some_iff.mp failed with ⟨_, _, impossible⟩
    cases impossible

/-- As `PlacesErrors.readValue?`, where something is made of the value. -/
theorem PlacesErrors.map_readValue? {α : Type} (places : PlacesErrors pool levels decoder)
    (wellFormed : pool.WellFormed) (there : message ∈ pool.messages)
    (member : field ∈ message.fields) {value : Wire.Value} {f : Json.Value → α}
    {error : DecodeError}
    (failed : (Payload.readValue? pool decoder message.fullName field.name field.type value).map
      (·.map f) = some (.error error)) : Placed pool (levels + 1) message error := by
  rcases Option.map_eq_some_iff.mp failed with ⟨run, isRun, refused⟩
  rw [Outcome.map_eq_error_iff] at refused
  exact places.readValue? wellFormed there member (refused ▸ isRun)

/-- A payload fails where it is no sequence of records, or where one of its records does. -/
theorem exists_of_readPayload_error {α : Type} {name : String}
    {interpret : Wire.Record → Option (Decoded α)} {payload : Bytes} {error : DecodeError}
    (failed : readPayload name interpret payload = .error error) :
    (∃ fault, error = .wire name fault) ∨ ∃ record, interpret record = some (.error error) := by
  simp only [readPayload] at failed
  split at failed
  · rename_i refused
    cases failed
    rcases exists_of_readRecords_error refused with ⟨record, _, interpreted⟩
    exact Or.inr ⟨record, interpreted⟩
  · split at failed
    · cases failed
      exact Or.inl ⟨_, rfl⟩
    · cases failed

/-! ## Map entries -/

/-- An entry fails in itself, in its value, or because it has no value and lies too deep for one. -/
theorem PlacesErrors.decodeEntry (places : PlacesErrors pool levels decoder)
    (wellFormed : pool.WellFormed) {id : MessageId} {entry : Message}
    (found : pool.message? id = some entry) (isEntry : entry.isMapEntry = true) {key : Scalar}
    {type : ValueType} (fields : entry.fields = [.entryKey key, .entryValue type])
    {payload : Bytes} {error : DecodeError}
    (failed : decodeEntry pool decoder entry payload = .error error) :
    Placed pool (levels + 1) entry error := by
  have there := List.mem_of_getElem? found
  have facts := wellFormed.messages entry there
  have isKey : Field.entryKey key ∈ entry.fields := fields ▸ List.mem_cons_self
  have isValue : Field.entryValue type ∈ entry.fields :=
    fields ▸ List.mem_cons_of_mem _ List.mem_cons_self
  simp only [Payload.decodeEntry, fields] at failed
  rcases Outcome.bind_eq_error_iff.mp failed with failed | ⟨parts, _, failed⟩
  · rcases exists_of_readPayload_error failed with ⟨fault, rfl⟩ | ⟨record, interpreted⟩
    · exact placed_self rfl rfl
    · unfold readEntryPart at interpreted
      split at interpreted
      · cases interpreted
      · split at interpreted
        · exact places.map_readValue? wellFormed there isKey interpreted
        · split at interpreted
          · exact places.map_readValue? wellFormed there isValue interpreted
          · cases interpreted
  · split at failed
    · cases failed
    · rcases Outcome.bind_eq_error_iff.mp failed with failed | ⟨_, _, impossible⟩
      · cases type with
        | message inner =>
          have known := facts.types _ isValue
          rcases known with ⟨next, nextFound⟩
          simp only [decodeMissing, Field.type, Field.entryValue, Shape.type, Decoder.follow] at failed
          rw [nextFound] at failed
          rcases places.empty next error failed with ⟨rfl, rfl⟩
          exact .missing rfl isEntry
            (messageBehind?_of_mem facts.indexed isValue rfl nextFound) rfl (Nat.le_refl _)
        | _ => cases failed
      · cases impossible

/-! ## Fields -/

/-- What a record gives its field fails in the message of the field, in an entry, or because of the
record itself. -/
theorem placed_of_contribution? (wellFormed : pool.WellFormed) (there : message ∈ pool.messages)
    (member : field ∈ message.fields) (places : PlacesErrors pool levels decoder)
    {entryLevels : Nat} (entryPlaces : PlacesErrors pool entryLevels entryDecoder)
    (least : levels ≤ entryLevels + 1) {value : Wire.Value} {error : DecodeError}
    (failed : contribution? pool decoder entryDecoder message field value = some (.error error)) :
    Placed pool (levels + 1) message error := by
  have facts := wellFormed.messages message there
  have single {α : Type} {type : ValueType} {f : Json.Value → α} (same : field.type = type)
      (failed : (readValue? pool decoder message.fullName field.name type value).map (·.map f) =
        some (.error error)) : Placed pool (levels + 1) message error :=
    places.map_readValue? wellFormed there member (same ▸ failed)
  unfold contribution? at failed
  split at failed
  · rename_i id content shape
    rcases inField_eq_error (Option.some.inj failed) with ⟨source, refused, rfl⟩
    rw [Outcome.map_eq_error_iff] at refused
    rcases facts.entries field member id shape with ⟨entry, found, isEntry, key, type, _, fields⟩
    rw [decodeEntryAt, found] at refused
    have placed := entryPlaces.decodeEntry wellFormed found isEntry fields refused
    exact (placed.inField facts.indexed member (Field.type_of_shape shape) found).mono
      (Nat.succ_le_succ least)
  · cases failed
  · rename_i type packed content shape
    split at failed
    · have refused := Option.some.inj failed
      rw [Outcome.map_eq_error_iff] at refused
      unfold readPacked at refused
      split at refused
      · cases refused
      · cases refused
        exact placed_self rfl rfl
    · exact single (Field.type_of_shape shape) failed
  · rename_i shape _
    exact single (Field.type_of_shape shape) failed
  · cases failed
  · rename_i shape _
    exact single (Field.type_of_shape shape) failed

theorem placed_of_fieldValue (wellFormed : pool.WellFormed) (there : message ∈ pool.messages)
    (member : field ∈ message.fields) (places : PlacesErrors pool levels decoder)
    {contributions : List Contribution} {error : DecodeError}
    (failed : fieldValue pool options decoder field contributions = .error error) :
    Placed pool (levels + 1) message error := by
  by_cases isSingle : ∃ id explicit, field.shape = .singular (.message id) explicit
  · rcases isSingle with ⟨id, explicit, shape⟩
    simp only [fieldValue, shape] at failed
    split at failed
    · cases failed
    · rw [Outcome.map_eq_error_iff] at failed
      rcases inField_eq_error failed with ⟨source, refused, rfl⟩
      exact places.follow wellFormed there member (Field.type_of_shape shape) refused
  · exact (fieldValue_ne_error (fun id explicit shape => isSingle ⟨id, explicit, shape⟩) failed).elim

/-- A field without any record of its own never fails. -/
theorem fieldValue_nil_ne_error {error : DecodeError}
    (failed : fieldValue pool options decoder field [] = .error error) : False := by
  by_cases isSingle : ∃ id explicit, field.shape = .singular (.message id) explicit
  · rcases isSingle with ⟨id, explicit, shape⟩
    simp only [fieldValue, shape, contentsOf, List.filterMap_nil] at failed
    cases failed
  · exact fieldValue_ne_error (fun id explicit shape => isSingle ⟨id, explicit, shape⟩) failed

/-! ## Messages -/

/-- By the shapes of the fields.  Entries may have one level less than messages. -/
theorem placesErrors_decodeLevel (wellFormed : pool.WellFormed)
    (places : PlacesErrors pool levels decoder) {entryLevels : Nat}
    (entryPlaces : PlacesErrors pool entryLevels entryDecoder)
    (least : levels ≤ entryLevels + 1) :
    PlacesErrors pool (levels + 1) (decodeLevel pool options decoder entryDecoder) where
  placed := by
    intro id message payload error found failed
    have there := List.mem_of_getElem? found
    rcases Outcome.bind_eq_error_iff.mp failed with failed | ⟨occurrences, _, failed⟩
    · rcases exists_of_readPayload_error failed with ⟨fault, rfl⟩ | ⟨record, interpreted⟩
      · exact placed_self rfl rfl
      · rcases Option.bind_eq_some_iff.mp interpreted with ⟨value, _, interpreted⟩
        rcases Option.bind_eq_some_iff.mp interpreted with ⟨field, isField, interpreted⟩
        rcases Option.bind_eq_some_iff.mp interpreted with ⟨run, isRun, result⟩
        have refused := Option.some.inj result
        rw [Outcome.map_eq_error_iff] at refused
        exact placed_of_contribution? wellFormed there (mem_of_fieldByNumber? isField) places
          entryPlaces least (refused ▸ isRun)
    · rcases Outcome.bind_eq_error_iff.mp failed with failed | ⟨_, _, impossible⟩
      · rcases exists_of_assemble_error failed with ⟨field, member, refused⟩
        exact placed_of_fieldValue wellFormed there member places refused
      · cases impossible
  empty := by
    intro message error failed
    have nothing : readPayload message.fullName (occurrence? pool decoder entryDecoder message) [] =
        .ok [] := by
      simp only [readPayload]
      rw [Wire.Record.split.eq_def]
      rfl
    rcases Outcome.bind_eq_error_iff.mp failed with failed | ⟨occurrences, isEmpty, failed⟩
    · cases nothing.symm.trans failed
    · cases nothing.symm.trans isEmpty
      rcases Outcome.bind_eq_error_iff.mp failed with failed | ⟨_, _, impossible⟩
      · rcases exists_of_assemble_error failed with ⟨field, _, refused⟩
        exact (fieldValue_nil_ne_error refused).elim
      · cases impossible

end Places

theorem placesErrors_decodeWithin {pool : Pool} (wellFormed : pool.WellFormed) (options : Options)
    (levels : Nat) : PlacesErrors pool levels (decodeWithin pool options levels) := by
  induction levels using decodeWithin.induct with
  | case1 => exact placesErrors_refuse pool
  | case2 =>
    exact placesErrors_decodeLevel wellFormed (placesErrors_refuse pool) (placesErrors_refuse pool)
      (Nat.zero_le _)
  | case3 levels below entriesBelow =>
    exact placesErrors_decodeLevel wellFormed below entriesBelow (Nat.le_refl _)

end Payload

open Schema Payload

/-- Whatever was registered, the names of an error lead to the message that it reports, except that
they end at an entry whose missing value lies too deep. -/
theorem decode_error_place (attempts : List (String × String)) {options : Options} {name : String}
    {message : Message} (found : (Pool.registerAll attempts).findMessage? name = some message)
    {payload : Bytes} {error : DecodeError}
    (failed : decode (.registerAll attempts) options name payload = .error error) :
    Placed (.registerAll attempts) nestingLimit message error := by
  have wellFormed := Pool.wellFormed_registerAll attempts
  rcases wellFormed.exists_of_findMessage? found with ⟨id, there, _⟩
  rw [decode, found] at failed
  exact (placesErrors_decodeWithin wellFormed options nestingLimit).placed id message payload error
    there failed

/-- Branches with a next branch and a map to others. -/
def branchAttempts : List (String × String) :=
  [("branch.proto", "message Branch\x7boptional Branch next=1;map<int32,Branch> others=2;\x7d")]

/-- A branch in the map ends in the middle of a record. -/
theorem decode_error_place_value :
    ∃ branch error,
      (Pool.registerAll branchAttempts).findMessage? "Branch" = some branch ∧
      decode (.registerAll branchAttempts) .plain "Branch" [18, 3, 18, 1, 8] = .error error ∧
      error.fields = ["others", "value"] ∧
      Placed (.registerAll branchAttempts) nestingLimit branch error := by
  have isFound : ((Pool.registerAll branchAttempts).findMessage? "Branch").isSome = true := by
    rw [branchAttempts, Pool.registerAll_ofList]
    decide +kernel
  have isRefused : (Outcome.refusal? (decode (.registerAll branchAttempts) .plain "Branch"
      [18, 3, 18, 1, 8])).map (·.fields) = some ["others", "value"] := by
    rw [branchAttempts, Pool.registerAll_ofList]
    decide +kernel
  rcases Option.isSome_iff_exists.mp isFound with ⟨branch, found⟩
  rcases Option.map_eq_some_iff.mp isRefused with ⟨error, isError, fields⟩
  have failed := Outcome.refusal?_eq_some_iff.mp isError
  exact ⟨branch, error, found, failed, fields, decode_error_place branchAttempts found failed⟩

/-- Branches inside of each other, the innermost with an entry that holds nothing. -/
def bareEntryWithin : (levels : Nat) → Bytes
  | 0 => [18, 0]
  | levels + 1 => Wire.Record.encode 1 (.delimited (bareEntryWithin levels))

/-- An entry that holds nothing may lie too deep for its value.  The names end at the entry, but the
message that is reported is the one that is missing. -/
theorem decode_error_place_missing :
    ∃ branch error,
      (Pool.registerAll branchAttempts).findMessage? "Branch" = some branch ∧
      decode (.registerAll branchAttempts) .plain "Branch" (bareEntryWithin 98) = .error error ∧
      error.fields = List.replicate 98 "next" ++ ["others"] ∧
      error.reported? = some "Branch" ∧
      ¬ ∃ last, Pool.chainEnd? (.registerAll branchAttempts) branch error.fields = some last ∧
        error.reported? = some last.fullName := by
  have isRefused : (Outcome.refusal? (decode (.registerAll branchAttempts) .plain "Branch"
      (bareEntryWithin 98))).map (fun error => (error.fields, error.reported?)) =
        some (List.replicate 98 "next" ++ ["others"], some "Branch") := by
    rw [branchAttempts, Pool.registerAll_ofList]
    decide +kernel
  have isEntry : ((Pool.registerAll branchAttempts).findMessage? "Branch").map (fun branch =>
      (Pool.chainEnd? (.registerAll branchAttempts) branch
        (List.replicate 98 "next" ++ ["others"])).map (·.fullName)) =
        some (some "Branch.OthersEntry") := by
    rw [branchAttempts, Pool.registerAll_ofList]
    decide +kernel
  rcases Option.map_eq_some_iff.mp isRefused with ⟨error, isError, names⟩
  rcases Option.map_eq_some_iff.mp isEntry with ⟨branch, found, ends⟩
  rcases Prod.mk.inj names with ⟨fields, reported⟩
  refine ⟨branch, error, found, Outcome.refusal?_eq_some_iff.mp isError, fields, reported, ?_⟩
  rintro ⟨last, chain, same⟩
  rw [fields] at chain
  rw [chain, Option.map_some, Option.some.inj (same.symm.trans reported)] at ends
  exact absurd (Option.some.inj ends) (by decide)

end SchemaRecords
