import SchemaRecords.Proofs.Json.DistinctKeys
import SchemaRecords.Proofs.Payload.CarriedValues

/-!
# The records of one field

The records of a field are those that have its number.  In a payload that was written field by
field they hold exactly what was written for it, and what a field outside of all oneofs shows is
made of them alone.  A payload of a single field has no other records, and so its document shows
nothing but this field.
-/

namespace SchemaRecords.Payload

open SchemaRecords.Schema

/-! ## Records of a number -/

/-- The records of a payload that have some number. -/
def recordsNumbered (number : Nat) (payload : Bytes) : List Wire.Record :=
  (Wire.Record.split payload).1.filter fun record => record.number = number

/-- The values in the records that have some number. -/
def valuesNumbered (number : Nat) (payload : Bytes) : List Wire.Value :=
  (recordsNumbered number payload).filterMap (·.value)

section Fields

variable {pool : Pool} {decoder entryDecoder : Decoder} {message : Message} {field : Field}

theorem recordsNumbered_writtenFields (indexed : message.Indexed)
    {wires : Field → List Wire.Value}
    (fits : ∀ field ∈ message.fields, ∀ wire ∈ wires field, wire.Fits)
    (member : field ∈ message.fields) :
    recordsNumbered field.number (writtenFields message wires) =
      (wires field).map fun wire => ⟨field.number, some wire⟩ := by
  rw [recordsNumbered, writtenFields,
    Wire.Record.split_encodeAll (isNumber_of_mem indexed) (fits_of_mem fits), recordsByNumber,
    List.map_flatMap, List.filter_flatMap,
    flatMap_eq_of_mem (mem_byNumber.mpr member) (nodup_byNumber indexed)]
  · rw [recordsOf, List.map_map]
    apply List.filter_eq_self.mpr
    intro record there
    rcases List.mem_map.mp there with ⟨wire, _, same⟩
    exact decide_eq_true (same ▸ rfl)
  · intro other there different
    apply List.filter_eq_nil_iff.mpr
    intro record isRecord sameNumber
    rw [recordsOf, List.map_map] at isRecord
    rcases List.mem_map.mp isRecord with ⟨wire, _, same⟩
    have number : other.number = field.number := by
      rw [← same] at sameNumber
      exact of_decide_eq_true sameNumber
    exact different (indexed.eq_of_number (mem_byNumber.mp there) member number)

theorem valuesNumbered_writtenFields (indexed : message.Indexed)
    {wires : Field → List Wire.Value}
    (fits : ∀ field ∈ message.fields, ∀ wire ∈ wires field, wire.Fits)
    (member : field ∈ message.fields) :
    valuesNumbered field.number (writtenFields message wires) = wires field := by
  rw [valuesNumbered, recordsNumbered_writtenFields indexed fits member, List.filterMap_map]
  exact List.filterMap_some

/-! ## Fields outside of oneofs -/

/-- A record with the number of a field is what the field makes of its value. -/
theorem occurrence?_own (indexed : message.Indexed) (member : field ∈ message.fields)
    {record : Wire.Record} (own : record.number = field.number) :
    occurrence? pool decoder entryDecoder message record =
      record.value.bind fun wire => (contribution? pool decoder entryDecoder message field wire).map
        (·.map (Occurrence.mk field)) := by
  rcases record with ⟨number, value⟩
  dsimp only at own
  subst own
  cases value with
  | none => rfl
  | some wire => exact occurrence?_written indexed member wire

theorem number_of_occurrence? (indexed : message.Indexed) {record : Wire.Record}
    {occurrence : Occurrence}
    (given : occurrence? pool decoder entryDecoder message record = some (.ok occurrence)) :
    occurrence.field.number = record.number := by
  rcases Option.bind_eq_some_iff.mp given with ⟨wire, _, fromWire⟩
  rcases Option.bind_eq_some_iff.mp fromWire with ⟨found, isFound, fromField⟩
  rcases Option.bind_eq_some_iff.mp fromField with ⟨run, _, mapped⟩
  rcases Outcome.map_eq_ok_iff.mp (Option.some.inj mapped) with ⟨contribution, _, same⟩
  exact same ▸ indexed.number_of_fieldByNumber? isFound

/-- Records of some numbers are understood as the occurrences of fields of these numbers. -/
theorem understood_filter (indexed : message.Indexed) (p : Nat → Bool)
    (records : List Wire.Record) :
    understood (occurrence? pool decoder entryDecoder message)
        (records.filter fun record => p record.number) =
      (understood (occurrence? pool decoder entryDecoder message) records).filter
        fun occurrence => p occurrence.field.number := by
  rw [understood, understood, List.filterMap_filter, List.filter_filterMap]
  apply List.filterMap_congr
  intro record _
  cases given : occurrence? pool decoder entryDecoder message record with
  | none => simp
  | some run =>
    cases run with
    | error refusal => simp [Except.toOption]
    | ok occurrence =>
      simp only [Option.bind_some, Except.toOption, Option.filter_some,
        number_of_occurrence? indexed given]

/-- Of the occurrences in a payload, those of a field come from its own records. -/
theorem contributions_of_understood (indexed : message.Indexed) (member : field ∈ message.fields)
    (records : List Wire.Record) :
    ((understood (occurrence? pool decoder entryDecoder message) records).filter
        fun occurrence => occurrence.field.number = field.number).map (·.contribution) =
      contributionsOf pool decoder entryDecoder message field
        ((records.filter fun record => record.number = field.number).filterMap (·.value)) := by
  rw [← understood_filter indexed (fun number => number = field.number) records, understood,
    List.map_filterMap, contributionsOf, List.filterMap_filterMap]
  apply List.filterMap_congr
  intro record there
  rw [occurrence?_own indexed member (of_decide_eq_true (List.mem_filter.mp there).2)]
  cases record.value with
  | none => rfl
  | some wire =>
    rw [Option.bind_some, Option.bind_some]
    cases contribution? pool decoder entryDecoder message field wire with
    | none => rfl
    | some run => cases run <;> rfl

/-- Only members of one oneof displace each other. -/
theorem contributionsTo_of_alone (alone : field.oneof = none) (occurrences : List Occurrence) :
    contributionsTo field occurrences =
      (occurrences.filter fun occurrence => occurrence.field.number = field.number).map
        (·.contribution) := by
  have undisturbed : ∀ occurrence ∈ occurrences.reverse,
      (!occurrence.displaces field) = true := by
    intro occurrence _
    rw [Occurrence.displaces, alone]
    rfl
  rw [contributionsTo, List.takeWhile_eq_self_iff.mpr undisturbed, List.reverse_reverse]

/-- What a field outside of all oneofs is given are the contributions of its records. -/
theorem contributionsTo_eq (indexed : message.Indexed) (member : field ∈ message.fields)
    (alone : field.oneof = none) {payload : Bytes} {occurrences : List Occurrence}
    (read : readPayload message.fullName (occurrence? pool decoder entryDecoder message) payload =
      .ok occurrences) :
    contributionsTo field occurrences =
      contributionsOf pool decoder entryDecoder message field
        (valuesNumbered field.number payload) := by
  rcases readPayload_eq_ok_iff_understood.mp read with ⟨-, -, rfl⟩
  rw [contributionsTo_of_alone alone]
  exact contributions_of_understood indexed member _

/-! ## What is shown under a key -/

/-- A field is shown under a key of its own: under the names of the schema that is always so, under
JSON names if no other field has the JSON name of this one. -/
def KeyIsOwn (options : Options) (message : Message) (field : Field) : Prop :=
  options.jsonNames = true → ∀ other ∈ message.fields, other.jsonName = field.jsonName →
    other = field

theorem KeyIsOwn.of_names {options : Options} (names : options.jsonNames = false)
    (message : Message) (field : Field) : KeyIsOwn options message field := by
  intro impossible
  rw [names] at impossible
  cases impossible

theorem KeyIsOwn.plain (message : Message) (field : Field) : KeyIsOwn .plain message field :=
  .of_names rfl message field

theorem KeyIsOwn.eq_of_key {options : Options} (own : KeyIsOwn options message field)
    (indexed : message.Indexed) (member : field ∈ message.fields) {other : Field}
    (there : other ∈ message.fields) (same : options.key other = options.key field) :
    other = field := by
  unfold Options.key at same
  split at same
  · exact own ‹_› other there same
  · exact List.inj_on_of_nodup_map indexed.namesDistinct there member same

/-- Fields with other keys leave what stands under a key. -/
theorem lookup_assemble_of_ne {options : Options} {occurrences : List Occurrence} {key : String}
    {fields : List Field} (others : ∀ other ∈ fields, options.key other ≠ key)
    {members result : Json.Members}
    (done : assemble pool options decoder occurrences members fields = .ok result) :
    result.lookup key = members.lookup key := by
  induction fields generalizing members with
  | nil => rw [← Except.ok.inj done]
  | cons first rest inductionHypothesis =>
    have restOthers := fun other there => others other (List.mem_cons_of_mem _ there)
    simp only [assemble] at done
    split at done
    · cases done
    · exact inductionHypothesis restOthers done
    · rw [inductionHypothesis restOthers done, Json.Members.lookup_insert,
        if_neg (others first List.mem_cons_self).symm]

/-- Under a key of its own stands what a field shows. -/
theorem fieldValue_of_assemble {options : Options} {occurrences : List Occurrence}
    {fields : List Field} (distinct : fields.Nodup) (member : field ∈ fields)
    (own : ∀ other ∈ fields, options.key other = options.key field → other = field)
    {members result : Json.Members} (new : members.lookup (options.key field) = none)
    (done : assemble pool options decoder occurrences members fields = .ok result) :
    fieldValue pool options decoder field (contributionsTo field occurrences) =
      .ok (result.lookup (options.key field)) := by
  induction fields generalizing members with
  | nil => cases member
  | cons first rest inductionHypothesis =>
    rw [List.nodup_cons] at distinct
    have restOwn := fun other there => own other (List.mem_cons_of_mem _ there)
    simp only [assemble] at done
    rcases List.mem_cons.mp member with same | later
    · subst same
      have restOthers : ∀ other ∈ rest, options.key other ≠ options.key field :=
        fun other there isKey => distinct.1 (restOwn other there isKey ▸ there)
      split at done
      · cases done
      · rename_i value
        rw [value, lookup_assemble_of_ne restOthers done, new]
      · rename_i shown value
        rw [value, lookup_assemble_of_ne restOthers done, Json.Members.lookup_insert, if_pos rfl]
    · have different : options.key field ≠ options.key first := fun isKey =>
        distinct.1 (own first List.mem_cons_self isKey.symm ▸ later)
      split at done
      · cases done
      · exact inductionHypothesis distinct.2 later restOwn new done
      · refine inductionHypothesis distinct.2 later restOwn ?_ done
        rw [Json.Members.lookup_insert, if_neg different, new]

/-- A document shows a field outside of all oneofs as its own records say, none of which is
refused. -/
theorem exists_of_decodeLevel_own (indexed : message.Indexed) (member : field ∈ message.fields)
    (alone : field.oneof = none) {options : Options} (own : KeyIsOwn options message field)
    {payload : Bytes} {document : Json.Value}
    (decoded : decodeLevel pool options decoder entryDecoder message payload = .ok document) :
    ∃ members, document = .object members ∧
      fieldValue pool options decoder field (contributionsOf pool decoder entryDecoder message field
        (valuesNumbered field.number payload)) = .ok (members.lookup (options.key field)) ∧
      ∀ wire ∈ valuesNumbered field.number payload, ∀ refusal,
        contribution? pool decoder entryDecoder message field wire ≠ some (.error refusal) := by
  rcases decodeLevel_eq_ok_iff.mp decoded with ⟨occurrences, read, members, assembled, same⟩
  refine ⟨members, same.symm, ?_, ?_⟩
  · rw [← contributionsTo_eq indexed member alone read]
    exact fieldValue_of_assemble indexed.nodup member
      (fun _ there isKey => own.eq_of_key indexed member there isKey) rfl assembled
  · intro wire there refusal refused
    rcases List.mem_filterMap.mp there with ⟨record, own, isValue⟩
    rcases List.mem_filter.mp own with ⟨inside, number⟩
    apply (readPayload_eq_ok_iff_understood.mp read).2.1 record inside refusal
    rw [occurrence?_own indexed member (of_decide_eq_true number), isValue, Option.bind_some,
      refused]
    rfl

/-! ## Payloads of one field -/

/-- Some values for one field, and none for the others. -/
def only (field : Field) (wires : List Wire.Value) (other : Field) : List Wire.Value :=
  if other = field then wires else []

theorem only_self (field : Field) (wires : List Wire.Value) : only field wires field = wires :=
  if_pos rfl

theorem only_of_ne {other : Field} (different : other ≠ field) (wires : List Wire.Value) :
    only field wires other = [] :=
  if_neg different

theorem eq_of_only_ne_nil {other : Field} {wires : List Wire.Value}
    (some : only field wires other ≠ []) : other = field := by
  by_contra different
  exact some (only_of_ne different wires)

/-- What holds of the values of one field, and of none for the others, holds of all fields. -/
theorem forall_only {P : Field → List Wire.Value → Prop} {wires : List Wire.Value}
    (own : P field wires) (others : ∀ other, P other []) (other : Field) :
    P other (only field wires other) := by
  by_cases same : other = field
  · rw [same, only_self]
    exact own
  · rw [only_of_ne same]
    exact others other

theorem writtenFields_only (indexed : message.Indexed) (member : field ∈ message.fields)
    (wires : List Wire.Value) :
    writtenFields message (only field wires) = writtenValues field wires := by
  have own : recordsByNumber message (only field wires) = recordsOf (only field wires) field := by
    apply flatMap_eq_of_mem (mem_byNumber.mpr member) (nodup_byNumber indexed)
    intro other _ different
    rw [recordsOf, only_of_ne different, List.map_nil]
  rw [writtenFields, own, recordsOf, only_self, writtenValues]

theorem shownMembers_only (indexed : message.Indexed) (member : field ∈ message.fields)
    (shown : Option Json.Value) :
    shownMembers (fun other => if other = field then shown else none) message.fields =
      shown.toList.map fun value => (field.name, value) := by
  rw [shownMembers, List.filterMap_eq_flatMap_toList,
    flatMap_eq_of_mem member indexed.nodup]
  · rw [if_pos rfl]
    cases shown <;> rfl
  · intro other _ different
    rw [if_neg different]
    rfl

/-- A payload of one field is decoded to what the field shows. -/
theorem decodeLevel_writtenValues (indexed : message.Indexed) (member : field ∈ message.fields)
    {wires : List Wire.Value} (fits : ∀ wire ∈ wires, wire.Fits)
    (contribute : Contribute pool decoder entryDecoder message field wires)
    {shown : Option Json.Value}
    (value : fieldValue pool .plain decoder field
      (contributionsOf pool decoder entryDecoder message field wires) = .ok shown) :
    decodeLevel pool .plain decoder entryDecoder message (writtenValues field wires) =
      .ok (.object (shown.toList.map fun value => (field.name, value))) := by
  rw [← writtenFields_only indexed member, ← shownMembers_only indexed member]
  apply decodeLevel_writtenFields indexed
  · intro other _
    exact forall_only (P := fun _ wires => ∀ wire ∈ wires, wire.Fits) fits
      (fun _ => List.forall_mem_nil _) other
  · intro other _
    exact forall_only contribute (fun _ => List.forall_mem_nil _) other
  · intro first _ second _ _ _ firstSome secondSome
    exact (eq_of_only_ne_nil firstSome).trans (eq_of_only_ne_nil secondSome).symm
  · intro other _
    by_cases same : other = field
    · rw [same, only_self, if_pos rfl]
      exact value
    · rw [only_of_ne same, if_neg same]
      exact fieldValue_nil pool decoder other

end Fields

/-- A payload of a known message is decoded by a decoder of the greatest depth. -/
theorem decode_of_findMessage? {pool : Pool} {name : String} {message : Message}
    (found : pool.findMessage? name = some message) (options : Options) (payload : Bytes) :
    decode pool options name payload =
      decodeLevel pool options (decodeWithin pool options (nestingLimit - 1))
        (decodeWithin pool options (nestingLimit - 2)) message payload := by
  simp only [decode, found]
  rfl

/-- Where nothing is written, nothing is shown. -/
theorem decode_nil {pool : Pool} {name : String} {message : Message}
    (found : pool.findMessage? name = some message) (indexed : message.Indexed) :
    decode pool .plain name [] = .ok (.object []) := by
  have assembled (decoder : Decoder) :
      assemble pool .plain decoder [] [] message.fields = .ok [] := by
    rw [assemble_of_fieldValue (fun field _ => fieldValue_nil pool decoder field)
      indexed.namesDistinct fun _ _ => List.not_mem_nil]
    simp [shownMembers]
  rw [decode_of_findMessage? found]
  apply decodeLevel_eq_ok_iff.mpr
  refine ⟨[], readPayload_eq_ok_iff.mpr ?_, [], assembled _, rfl⟩
  rw [Wire.Record.split.eq_def]
  exact ⟨rfl, rfl⟩

/-! ## Fields of single values -/

section Single

variable {pool : Pool} {decoder entryDecoder : Decoder} {message : Message} {field : Field}
  {type : ValueType} {explicit : Bool} {name : String} {value : Json.Value} {wire : Wire.Value}
  (shape : field.shape = .singular type explicit) (notMessage : type.isMessage = false)

include shape notMessage

/-- The last value of a field is shown, unless it may be left out. -/
theorem fieldValue_single {options : Options} (sparse : options.emitDefaults = false)
    (contributions : List Contribution) :
    fieldValue pool options decoder field contributions =
      .ok ((valuesOf contributions).getLast?.filter fun value =>
        field.hasPresence || !isDefault pool type value) := by
  rw [fieldValue_of_notMessage shape notMessage, sparse]
  cases (valuesOf contributions).getLast? with
  | none => rfl
  | some value =>
    simp only [Bool.not_false, Bool.and_true, Option.filter_some]
    cases field.hasPresence <;> cases isDefault pool type value <;> rfl

/-- The values that a field reads in its records are its contributions. -/
theorem valuesOf_contributionsOf (wires : List Wire.Value) :
    valuesOf (contributionsOf pool decoder entryDecoder message field wires) =
      wires.filterMap fun wire =>
        (readValue? pool decoder message.fullName field.name type wire).bind Except.toOption := by
  rw [valuesOf, contributionsOf, List.filterMap_filterMap]
  apply List.filterMap_congr
  intro wire _
  rw [contribution?_of_notMessage shape notMessage]
  cases readValue? pool decoder message.fullName field.name type wire with
  | none => rfl
  | some run => cases run <;> rfl

/-- A value that was written for one field of a message is shown for it. -/
theorem decode_writtenValues (found : pool.findMessage? name = some message)
    (indexed : message.Indexed) (member : field ∈ message.fields) (fits : wire.Fits)
    (reads : Reads pool refuse type wire value) :
    decode pool .plain name (writtenValues field [wire]) =
      .ok (.object (if field.hasPresence || !isDefault pool type value then [(field.name, value)]
        else [])) := by
  rw [decode_of_findMessage? found]
  have read (decoder : Decoder) :
      readValue? pool decoder message.fullName field.name type wire = some (.ok value) :=
    (readValue?_of_notMessage notMessage decoder refuse _ _ _).trans (reads _ _)
  have contribute (decoder entryDecoder : Decoder) :
      Contribute pool decoder entryDecoder message field [wire] := by
    intro other isWire
    rw [List.mem_singleton.mp isWire, contribution?_of_notMessage shape notMessage, read]
    exact ⟨.value value, rfl⟩
  rw [decodeLevel_writtenValues indexed member (List.forall_mem_singleton.mpr fits)
    (contribute _ _) (fieldValue_single shape notMessage rfl _),
    valuesOf_contributionsOf shape notMessage, List.filterMap_cons, read]
  dsimp only [Option.bind_some, Except.toOption, List.filterMap_nil, List.getLast?_singleton]
  rw [Option.filter_some]
  split <;> rfl

end Single

/-- A value is written for its field alone. -/
theorem encode_written {pool : Pool} {message : Message} {field : Field} {type : ValueType}
    {explicit : Bool} {name : String} {value : Json.Value} {wire : Wire.Value}
    (shape : field.shape = .singular type explicit)
    (found : pool.findMessage? name = some message) (indexed : message.Indexed)
    (member : field ∈ message.fields) (written : Written pool type value wire) :
    encode pool name (.object [(field.name, value)]) =
      .ok (writtenValues field (if !field.hasPresence && isZero wire then [] else [wire])) := by
  rw [encode_object found, encodeMembers_singleton indexed (indexed.fieldByName?_of_mem member)
    written.notNull]
  exact valueRecords_single shape written

end SchemaRecords.Payload
