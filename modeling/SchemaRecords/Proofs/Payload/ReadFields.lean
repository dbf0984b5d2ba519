import Mathlib.Data.List.TakeWhile
import SchemaRecords.Proofs.Json.DistinctKeys
import SchemaRecords.Proofs.Payload.GrownDecoding
import SchemaRecords.Proofs.Payload.WrittenFields

/-!
# Documents field by field

Records are interpreted exactly if none of them is refused, and then all that mean something
give what they mean.

What a decoder shows for a field depends on the contributions to this field alone.  Of the
fields of a oneof at most one has contributions that count, because an occurrence of one
displaces those of the others.  And in a payload that was written field by field, the
contributions to each field are those of the values written for it.
-/

namespace SchemaRecords.Payload

open SchemaRecords.Schema

/-! ## Records that are understood -/

section Records

variable {α : Type} {interpret : Wire.Record → Option (Decoded α)} {records : List Wire.Record}

/-- None of some records is refused. -/
def AllAccepted (interpret : Wire.Record → Option (Decoded α)) (records : List Wire.Record) :
    Prop :=
  ∀ record ∈ records, ∀ refusal, interpret record ≠ some (.error refusal)

/-- What the records that mean something give, in order. -/
def understood (interpret : Wire.Record → Option (Decoded α)) (records : List Wire.Record) :
    List α :=
  records.filterMap fun record => (interpret record).bind Except.toOption

theorem allAccepted_cons {record : Wire.Record} :
    AllAccepted interpret (record :: records) ↔
      (∀ refusal, interpret record ≠ some (.error refusal)) ∧ AllAccepted interpret records :=
  List.forall_mem_cons

theorem exists_of_mem_understood {value : α} (there : value ∈ understood interpret records) :
    ∃ record ∈ records, interpret record = some (.ok value) := by
  rcases List.mem_filterMap.mp there with ⟨record, inside, given⟩
  rcases Option.bind_eq_some_iff.mp given with ⟨run, isRun, isOk⟩
  exact ⟨record, inside, Outcome.toOption_eq_some_iff.mp isOk ▸ isRun⟩

/-- Records are interpreted exactly if none of them is refused, and give what each of them means. -/
theorem readRecords_eq_ok_iff {values : List α} :
    readRecords interpret records = .ok values ↔
      AllAccepted interpret records ∧ values = understood interpret records := by
  induction records generalizing values with
  | nil =>
    constructor
    · intro done
      cases done
      exact ⟨List.forall_mem_nil _, rfl⟩
    · rintro ⟨-, rfl⟩
      rfl
  | cons record rest inductionHypothesis =>
    rw [readRecords, allAccepted_cons, understood, List.filterMap_cons, ← understood]
    cases interpret record with
    | none => simp [inductionHypothesis]
    | some run =>
      cases run with
      | error refusal => simp
      | ok value =>
        cases later : readRecords interpret rest with
        | error refusal =>
          have refused : ¬ AllAccepted interpret rest := fun accepted => by
            cases later.symm.trans (inductionHypothesis.mpr ⟨accepted, rfl⟩)
          simp [refused]
        | ok others =>
          rcases inductionHypothesis.mp later with ⟨accepted, rfl⟩
          simp [accepted, Except.toOption, eq_comm]

theorem exists_of_readRecords {values : List α} (done : readRecords interpret records = .ok values) :
    ∀ value ∈ values, ∃ record, interpret record = some (.ok value) := by
  rcases readRecords_eq_ok_iff.mp done with ⟨-, rfl⟩
  intro value there
  rcases exists_of_mem_understood there with ⟨record, -, given⟩
  exact ⟨record, given⟩

theorem readRecords_of_understood
    (each : ∀ record ∈ records, ∃ value, interpret record = some (.ok value)) :
    readRecords interpret records = .ok (understood interpret records) := by
  refine readRecords_eq_ok_iff.mpr ⟨fun record member refusal refused => ?_, rfl⟩
  rcases each record member with ⟨value, given⟩
  cases given.symm.trans refused

theorem readRecords_append {others : List Wire.Record} {values otherValues : List α}
    (done : readRecords interpret records = .ok values)
    (otherDone : readRecords interpret others = .ok otherValues) :
    readRecords interpret (records ++ others) = .ok (values ++ otherValues) := by
  rcases readRecords_eq_ok_iff.mp done with ⟨accepted, rfl⟩
  rcases readRecords_eq_ok_iff.mp otherDone with ⟨othersAccepted, rfl⟩
  exact readRecords_eq_ok_iff.mpr ⟨List.forall_mem_append.mpr ⟨accepted, othersAccepted⟩,
    List.filterMap_append.symm⟩

/-- Where no record is skipped, success means that every one was understood. -/
theorem understood_of_readRecords {values : List α}
    (done : readRecords interpret records = .ok values)
    (never : ∀ record ∈ records, interpret record ≠ none) :
    ∀ record ∈ records, ∃ value, interpret record = some (.ok value) := by
  intro record member
  cases given : interpret record with
  | none => exact absurd given (never record member)
  | some run =>
    cases run with
    | error refusal => exact absurd given ((readRecords_eq_ok_iff.mp done).1 record member refusal)
    | ok value => exact ⟨value, rfl⟩

theorem readPayload_eq_ok_iff {message : String} {payload : Bytes} {values : List α} :
    readPayload message interpret payload = .ok values ↔
      readRecords interpret (Wire.Record.split payload).1 = .ok values ∧
        (Wire.Record.split payload).2 = none := by
  unfold readPayload
  rcases Wire.Record.split payload with ⟨records, fault⟩
  dsimp only
  cases readRecords interpret records with
  | error refusal => simp
  | ok read => cases fault <;> simp

/-- A payload is interpreted exactly if it ends behind a record and none of its records is
refused. -/
theorem readPayload_eq_ok_iff_understood {message : String} {payload : Bytes} {values : List α} :
    readPayload message interpret payload = .ok values ↔
      (Wire.Record.split payload).2 = none ∧ AllAccepted interpret (Wire.Record.split payload).1 ∧
        values = understood interpret (Wire.Record.split payload).1 := by
  rw [readPayload_eq_ok_iff, readRecords_eq_ok_iff]
  exact and_comm

theorem readPayload_encodeAll {message : String} {written : List (Nat × Wire.Value)}
    (legal : ∀ record ∈ written, Wire.IsNumber record.1)
    (fits : ∀ record ∈ written, record.2.Fits) {values : List α} :
    readPayload message interpret (Wire.Record.encodeAll written) = .ok values ↔
      readRecords interpret (written.map fun record => ⟨record.1, some record.2⟩) =
        .ok values := by
  rw [readPayload_eq_ok_iff, Wire.Record.split_encodeAll legal fits]
  exact and_iff_left rfl

theorem eq_ok_of_inField {α : Type} {name : String} {run : Decoded α} {value : α}
    (done : inField name run = .ok value) : run = .ok value := by
  cases run with
  | ok result => exact done
  | error refusal => cases done

end Records

/-! ## Contributions of written values -/

section Fields

variable {pool : Pool} {decoder entryDecoder : Decoder} {message : Message}

/-- What values give a field, as far as they are laid out as the field's type says. -/
def contributionsOf (pool : Pool) (decoder entryDecoder : Decoder) (message : Message)
    (field : Field) (wires : List Wire.Value) : List Contribution :=
  wires.filterMap fun wire =>
    (contribution? pool decoder entryDecoder message field wire).bind Except.toOption

/-- Every one of some values gives a field something. -/
def Contribute (pool : Pool) (decoder entryDecoder : Decoder) (message : Message) (field : Field)
    (wires : List Wire.Value) : Prop :=
  ∀ wire ∈ wires, ∃ contribution,
    contribution? pool decoder entryDecoder message field wire = some (.ok contribution)

theorem contributionsOf_eq {field : Field} {wires : List Wire.Value}
    {contributions : List Contribution}
    (each : List.Forall₂ (fun wire contribution =>
      contribution? pool decoder entryDecoder message field wire = some (.ok contribution))
      wires contributions) :
    contributionsOf pool decoder entryDecoder message field wires = contributions := by
  induction each with
  | nil => rfl
  | cons first _ inductionHypothesis =>
    rename_i wire contribution rest others _
    rw [contributionsOf] at inductionHypothesis ⊢
    simp only [List.filterMap_cons, first, Option.bind_some, Except.toOption, inductionHypothesis]

theorem Contribute.of_forall₂ {field : Field} {wires : List Wire.Value}
    {contributions : List Contribution}
    (each : List.Forall₂ (fun wire contribution =>
      contribution? pool decoder entryDecoder message field wire = some (.ok contribution))
      wires contributions) :
    Contribute pool decoder entryDecoder message field wires := by
  induction each with
  | nil => exact List.forall_mem_nil _
  | cons first _ inductionHypothesis =>
    intro wire member
    rcases List.mem_cons.mp member with same | member
    · exact same ▸ ⟨_, first⟩
    · exact inductionHypothesis wire member

theorem Contribute.ne_none {field : Field} {wires : List Wire.Value}
    (contribute : Contribute pool decoder entryDecoder message field wires) :
    ∀ wire ∈ wires, contribution? pool decoder entryDecoder message field wire ≠ none := by
  intro wire member none
  rcases contribute wire member with ⟨contribution, given⟩
  rw [none] at given
  cases given

/-- The occurrences in a payload that was written field by field. -/
def writtenOccurrences (pool : Pool) (decoder entryDecoder : Decoder) (message : Message)
    (wires : Field → List Wire.Value) : List Occurrence :=
  (byNumber message.fields).flatMap fun field =>
    (contributionsOf pool decoder entryDecoder message field (wires field)).map (Occurrence.mk field)

theorem occurrence?_written (indexed : message.Indexed) {field : Field}
    (member : field ∈ message.fields) (wire : Wire.Value) :
    occurrence? pool decoder entryDecoder message ⟨field.number, some wire⟩ =
      (contribution? pool decoder entryDecoder message field wire).map
        (·.map (Occurrence.mk field)) :=
  occurrence?_of_field rfl (indexed.fieldByNumber?_of_mem member)

theorem toOption_occurrence? (indexed : message.Indexed) {field : Field}
    (member : field ∈ message.fields) (wire : Wire.Value) :
    (occurrence? pool decoder entryDecoder message ⟨field.number, some wire⟩).bind
        Except.toOption =
      ((contribution? pool decoder entryDecoder message field wire).bind Except.toOption).map
        (Occurrence.mk field) := by
  rw [occurrence?_written indexed member]
  cases contribution? pool decoder entryDecoder message field wire with
  | none => rfl
  | some contribution => cases contribution <;> rfl

theorem filterMap_recordsByNumber (indexed : message.Indexed) (wires : Field → List Wire.Value) :
    ((recordsByNumber message wires).map fun record => (⟨record.1, some record.2⟩ : Wire.Record)).filterMap
        (fun record => (occurrence? pool decoder entryDecoder message record).bind
          Except.toOption) =
      writtenOccurrences pool decoder entryDecoder message wires := by
  rw [recordsByNumber, writtenOccurrences, List.map_flatMap, List.filterMap_flatMap]
  apply List.flatMap_congr
  intro field member
  have declared := mem_byNumber.mp member
  rw [recordsOf, List.map_map, List.filterMap_map, contributionsOf, List.map_filterMap]
  apply List.filterMap_congr
  intro wire _
  exact toOption_occurrence? indexed declared wire

theorem isNumber_of_mem (indexed : message.Indexed) {wires : Field → List Wire.Value} :
    ∀ record ∈ recordsByNumber message wires, Wire.IsNumber record.1 := by
  intro record member
  rcases List.mem_flatMap.mp member with ⟨field, there, isRecord⟩
  rcases List.mem_map.mp isRecord with ⟨wire, _, same⟩
  have legal := indexed.numbers field (mem_byNumber.mp there)
  have bound : maxFieldNumber < 2 ^ 29 := by decide
  rw [← same]
  exact ⟨legal.1, Nat.lt_of_le_of_lt legal.2.1 bound⟩

theorem mem_recordsByNumber {wires : Field → List Wire.Value} {record : Nat × Wire.Value} :
    record ∈ recordsByNumber message wires ↔
      ∃ field ∈ message.fields, ∃ wire ∈ wires field, (field.number, wire) = record := by
  rw [recordsByNumber, List.mem_flatMap]
  simp only [mem_byNumber, recordsOf, List.mem_map]

theorem fits_of_mem {wires : Field → List Wire.Value}
    (fits : ∀ field ∈ message.fields, ∀ wire ∈ wires field, wire.Fits) :
    ∀ record ∈ recordsByNumber message wires, record.2.Fits := by
  intro record member
  rcases mem_recordsByNumber.mp member with ⟨field, there, wire, isWritten, same⟩
  exact same ▸ fits field there wire isWritten

theorem fits_of_length_writtenFields {wires : Field → List Wire.Value}
    (short : (writtenFields message wires).length < 2 ^ 32) :
    ∀ field ∈ message.fields, ∀ wire ∈ wires field, wire.Fits := by
  intro field member wire there
  have isRecord := mem_recordsByNumber.mpr ⟨field, member, wire, there, rfl⟩
  exact Wire.Value.fits_of_length
    (Nat.lt_of_le_of_lt (Wire.Record.length_encode_le isRecord) short)

/-- A payload that was written field by field is read field by field. -/
theorem readPayload_writtenFields (indexed : message.Indexed) {wires : Field → List Wire.Value}
    (fits : ∀ field ∈ message.fields, ∀ wire ∈ wires field, wire.Fits)
    (contribute : ∀ field ∈ message.fields,
      Contribute pool decoder entryDecoder message field (wires field)) :
    readPayload message.fullName (occurrence? pool decoder entryDecoder message)
        (writtenFields message wires) =
      .ok (writtenOccurrences pool decoder entryDecoder message wires) := by
  apply (readPayload_encodeAll (isNumber_of_mem indexed) (fits_of_mem fits)).mpr
  rw [← filterMap_recordsByNumber indexed]
  apply readRecords_of_understood
  intro record member
  rcases List.mem_map.mp member with ⟨pair, isRecord, same⟩
  rcases mem_recordsByNumber.mp isRecord with ⟨field, there, wire, isWritten, pairSame⟩
  rcases contribute field there wire isWritten with ⟨contribution, given⟩
  subst pairSame
  subst same
  rw [occurrence?_written indexed there, given]
  exact ⟨_, rfl⟩

/-- Two such payloads, one behind the other, are read one after the other. -/
theorem readPayload_writtenFields_append (indexed : message.Indexed)
    {first second : Field → List Wire.Value}
    (firstFits : ∀ field ∈ message.fields, ∀ wire ∈ first field, wire.Fits)
    (secondFits : ∀ field ∈ message.fields, ∀ wire ∈ second field, wire.Fits)
    (firstContribute : ∀ field ∈ message.fields,
      Contribute pool decoder entryDecoder message field (first field))
    (secondContribute : ∀ field ∈ message.fields,
      Contribute pool decoder entryDecoder message field (second field)) :
    readPayload message.fullName (occurrence? pool decoder entryDecoder message)
        (writtenFields message first ++ writtenFields message second) =
      .ok (writtenOccurrences pool decoder entryDecoder message first ++
        writtenOccurrences pool decoder entryDecoder message second) := by
  have firstRead := readPayload_writtenFields indexed firstFits firstContribute
  have secondRead := readPayload_writtenFields indexed secondFits secondContribute
  rw [writtenFields, writtenFields, ← Wire.Record.encodeAll_append]
  rw [writtenFields, readPayload_encodeAll (isNumber_of_mem indexed) (fits_of_mem firstFits)]
    at firstRead
  rw [writtenFields, readPayload_encodeAll (isNumber_of_mem indexed) (fits_of_mem secondFits)]
    at secondRead
  rw [readPayload_encodeAll
    (List.forall_mem_append.mpr ⟨isNumber_of_mem indexed, isNumber_of_mem indexed⟩)
    (List.forall_mem_append.mpr ⟨fits_of_mem firstFits, fits_of_mem secondFits⟩), List.map_append]
  exact readRecords_append firstRead secondRead

/-- If such a payload can be read at all, every value in it gives its field something. -/
theorem contribute_of_readPayload (indexed : message.Indexed) {wires : Field → List Wire.Value}
    (fits : ∀ field ∈ message.fields, ∀ wire ∈ wires field, wire.Fits)
    {occurrences : List Occurrence}
    (done : readPayload message.fullName (occurrence? pool decoder entryDecoder message)
      (writtenFields message wires) = .ok occurrences)
    (never : ∀ field ∈ message.fields, ∀ wire ∈ wires field,
      contribution? pool decoder entryDecoder message field wire ≠ none) :
    ∀ field ∈ message.fields,
      Contribute pool decoder entryDecoder message field (wires field) := by
  have read := (readPayload_encodeAll (isNumber_of_mem indexed) (fits_of_mem fits)).mp done
  have understood := understood_of_readRecords read (by
    intro record member
    rcases List.mem_map.mp member with ⟨pair, isRecord, same⟩
    rcases mem_recordsByNumber.mp isRecord with ⟨field, there, wire, isWritten, pairSame⟩
    subst pairSame
    subst same
    rw [occurrence?_written indexed there]
    intro skipped
    exact never field there wire isWritten (Option.map_eq_none_iff.mp skipped))
  intro field there wire isWritten
  have isRecord := mem_recordsByNumber.mpr ⟨field, there, wire, isWritten, rfl⟩
  rcases understood _ (List.mem_map_of_mem isRecord) with ⟨occurrence, given⟩
  rw [occurrence?_written indexed there] at given
  rcases Option.map_eq_some_iff.mp given with ⟨run, isRun, same⟩
  rcases Outcome.map_eq_ok_iff.mp same with ⟨contribution, ok, _⟩
  exact ⟨contribution, ok ▸ isRun⟩

/-! ## Contributions that count -/

/-- Of two elements in front of what ends either run, one comes first. -/
theorem mem_takeWhile_or {α : Type} {first second : α} {p q : α → Bool} {list : List α}
    (firstMember : first ∈ list.takeWhile p) (secondMember : second ∈ list.takeWhile q) :
    q first = true ∨ p second = true := by
  induction list with
  | nil => cases firstMember
  | cons head rest inductionHypothesis =>
    rw [List.takeWhile_cons] at firstMember secondMember
    split at firstMember
    · rename_i headP
      split at secondMember
      · rename_i headQ
        rcases List.mem_cons.mp firstMember with same | firstLater
        · exact Or.inl (same ▸ headQ)
        · rcases List.mem_cons.mp secondMember with same | secondLater
          · exact Or.inr (same ▸ headP)
          · exact inductionHypothesis firstLater secondLater
      · cases secondMember
    · cases firstMember

theorem mem_contributionsTo {field : Field} {occurrences : List Occurrence}
    {contribution : Contribution} (member : contribution ∈ contributionsTo field occurrences) :
    ∃ occurrence ∈ occurrences.reverse.takeWhile fun occurrence => !occurrence.displaces field,
      occurrence.field.number = field.number ∧ occurrence.contribution = contribution := by
  rcases List.mem_map.mp member with ⟨occurrence, there, same⟩
  have parts := List.mem_filter.mp there
  exact ⟨occurrence, List.mem_reverse.mp parts.1, of_decide_eq_true parts.2, same⟩

theorem displaces_of_ne {occurrence : Occurrence} {field other : Field}
    (isField : occurrence.field = field) (inOneof : other.oneof.isSome = true)
    (sameOneof : field.oneof = other.oneof) (different : field.number ≠ other.number) :
    occurrence.displaces other = true := by
  simp [Occurrence.displaces, isField, inOneof, sameOneof, different]

/-- At most one field of a oneof has contributions that count. -/
theorem exclusive_contributionsTo (indexed : message.Indexed) {occurrences : List Occurrence}
    (declared : ∀ occurrence ∈ occurrences, occurrence.field ∈ message.fields) :
    Exclusive message fun field => contributionsTo field occurrences ≠ [] := by
  intro first firstMember second secondMember inOneof sameOneof firstSome secondSome
  rcases List.exists_mem_of_ne_nil _ firstSome with ⟨one, isOne⟩
  rcases List.exists_mem_of_ne_nil _ secondSome with ⟨other, isOther⟩
  rcases mem_contributionsTo isOne with ⟨firstOccurrence, firstThere, firstNumber, _⟩
  rcases mem_contributionsTo isOther with ⟨secondOccurrence, secondThere, secondNumber, _⟩
  have isDeclared {field : Field} {occurrence : Occurrence} (there : occurrence ∈
      occurrences.reverse.takeWhile fun occurrence => !occurrence.displaces field) :
      occurrence.field ∈ message.fields :=
    declared occurrence (List.mem_reverse.mp ((List.takeWhile_sublist _).mem there))
  have firstField := indexed.eq_of_number (isDeclared firstThere) firstMember firstNumber
  have secondField := indexed.eq_of_number (isDeclared secondThere) secondMember secondNumber
  by_contra different
  have numbers : first.number ≠ second.number := fun same =>
    different (indexed.eq_of_number firstMember secondMember same)
  rcases mem_takeWhile_or firstThere secondThere with kept | kept
  · rw [displaces_of_ne firstField (sameOneof ▸ inOneof) sameOneof numbers] at kept
    cases kept
  · rw [displaces_of_ne secondField inOneof sameOneof.symm numbers.symm] at kept
    cases kept

/-- A list in which only one element gives something. -/
theorem flatMap_eq_of_mem {α β : Type} {f : α → List β} {list : List α} {element : α}
    (member : element ∈ list) (distinct : list.Nodup)
    (others : ∀ other ∈ list, other ≠ element → f other = []) : list.flatMap f = f element := by
  induction list with
  | nil => cases member
  | cons head rest inductionHypothesis =>
    have absent := (List.nodup_cons.mp distinct).1
    have restOthers := fun other there => others other (List.mem_cons_of_mem _ there)
    rw [List.flatMap_cons]
    rcases List.mem_cons.mp member with same | later
    · subst same
      have nothing : rest.flatMap f = [] := by
        apply List.flatMap_eq_nil_iff.mpr
        intro other there
        exact restOthers other there fun equal => absent (equal ▸ there)
      rw [nothing, List.append_nil]
    · have different : head ≠ element := fun equal => absent (equal ▸ later)
      rw [others head List.mem_cons_self different, List.nil_append]
      exact inductionHypothesis later (List.nodup_cons.mp distinct).2 restOthers

theorem nodup_byNumber (indexed : message.Indexed) : (byNumber message.fields).Nodup :=
  (List.perm_insertionSort _ _).nodup_iff.mpr indexed.nodup

/-- The occurrences in a payload that was written field by field are of the fields that something
was written for. -/
theorem mem_of_writtenOccurrences {wires : Field → List Wire.Value} {occurrence : Occurrence}
    (member : occurrence ∈ writtenOccurrences pool decoder entryDecoder message wires) :
    occurrence.field ∈ message.fields ∧ wires occurrence.field ≠ [] := by
  rcases List.mem_flatMap.mp member with ⟨source, isSource, isOccurrence⟩
  rcases List.mem_map.mp isOccurrence with ⟨contribution, given, same⟩
  rw [← same]
  refine ⟨mem_byNumber.mp isSource, fun none => ?_⟩
  rw [none] at given
  cases given

theorem exists_writtenOccurrence {wires : Field → List Wire.Value} {field : Field}
    (member : field ∈ message.fields)
    (contribute : Contribute pool decoder entryDecoder message field (wires field))
    (some : wires field ≠ []) :
    ∃ occurrence ∈ writtenOccurrences pool decoder entryDecoder message wires,
      occurrence.field = field := by
  rcases List.exists_mem_of_ne_nil _ some with ⟨wire, isWritten⟩
  rcases contribute wire isWritten with ⟨contribution, given⟩
  have isGiven : contribution ∈
      contributionsOf pool decoder entryDecoder message field (wires field) :=
    List.mem_filterMap.mpr ⟨wire, isWritten, by rw [given]; rfl⟩
  exact ⟨⟨field, contribution⟩, List.mem_flatMap.mpr
    ⟨field, mem_byNumber.mpr member, List.mem_map_of_mem isGiven⟩, rfl⟩

/-- Of the occurrences in a payload that was written field by field, those of a field all
count. -/
theorem contributionsTo_writtenOccurrences (indexed : message.Indexed)
    {wires : Field → List Wire.Value} (exclusive : Exclusive message fun field => wires field ≠ [])
    {field : Field} (member : field ∈ message.fields) :
    contributionsTo field (writtenOccurrences pool decoder entryDecoder message wires) =
      contributionsOf pool decoder entryDecoder message field (wires field) := by
  by_cases none : wires field = []
  · rw [none]
    apply List.eq_nil_iff_forall_not_mem.mpr
    intro contribution there
    rcases mem_contributionsTo there with ⟨occurrence, kept, number, _⟩
    have source := mem_of_writtenOccurrences
      (List.mem_reverse.mp ((List.takeWhile_sublist _).mem kept))
    exact source.2 (indexed.eq_of_number source.1 member number ▸ none)
  · have undisturbed : ∀ occurrence ∈
        (writtenOccurrences pool decoder entryDecoder message wires).reverse,
        (!occurrence.displaces field) = true := by
      intro occurrence there
      have source := mem_of_writtenOccurrences (List.mem_reverse.mp there)
      rw [Bool.not_eq_true', Bool.eq_false_iff]
      intro displaced
      simp only [Occurrence.displaces, Bool.and_eq_true, decide_eq_true_eq] at displaced
      rcases displaced with ⟨⟨inOneof, sameOneof⟩, different⟩
      have same := exclusive field member occurrence.field source.1 inOneof sameOneof.symm none
        source.2
      exact different (same ▸ rfl)
    have own : ((writtenOccurrences pool decoder entryDecoder message wires).filter
        fun occurrence => occurrence.field.number = field.number) =
        (contributionsOf pool decoder entryDecoder message field (wires field)).map
          (Occurrence.mk field) := by
      rw [writtenOccurrences, List.filter_flatMap,
        flatMap_eq_of_mem (mem_byNumber.mpr member) (nodup_byNumber indexed)]
      · apply List.filter_eq_self.mpr
        intro occurrence there
        rcases List.mem_map.mp there with ⟨contribution, _, same⟩
        exact decide_eq_true (same ▸ rfl)
      · intro other there different
        apply List.filter_eq_nil_iff.mpr
        intro occurrence isOccurrence sameNumber
        rcases List.mem_map.mp isOccurrence with ⟨contribution, _, same⟩
        have number : other.number = field.number := by
          rw [← same] at sameNumber
          exact of_decide_eq_true sameNumber
        exact different (indexed.eq_of_number (mem_byNumber.mp there) member number)
    rw [contributionsTo, List.takeWhile_eq_self_iff.mpr undisturbed, List.reverse_reverse]
    simp only [own, List.map_map]
    exact List.map_id _

/-! ## Members of a document -/

/-- Fields that have different keys are listed with the values that they show. -/
theorem assemble_membersUnder {options : Options} {occurrences : List Occurrence}
    {shown : Field → Option Json.Value} {fields : List Field}
    (values : ∀ field ∈ fields,
      fieldValue pool options decoder field (contributionsTo field occurrences) =
        .ok (shown field))
    (distinct : (fields.map options.key).Nodup) {members : Json.Members}
    (new : ∀ field ∈ fields, options.key field ∉ members.map (·.1)) :
    assemble pool options decoder occurrences members fields =
      .ok (members ++ membersUnder options.key shown fields) := by
  induction fields generalizing members with
  | nil => rw [assemble, membersUnder, List.filterMap_nil, List.append_nil]
  | cons field rest inductionHypothesis =>
    rw [List.map_cons, List.nodup_cons] at distinct
    have restValues := fun other there => values other (List.mem_cons_of_mem _ there)
    have restNew := fun other there => new other (List.mem_cons_of_mem _ there)
    simp only [assemble, values field List.mem_cons_self]
    rw [membersUnder, List.filterMap_cons]
    cases isShown : shown field with
    | none => exact inductionHypothesis restValues distinct.2 restNew
    | some value =>
      have longer : ∀ other ∈ rest,
          options.key other ∉ (members ++ [(options.key field, value)]).map (·.1) := by
        intro other there known
        rw [List.map_append, List.mem_append] at known
        rcases known with before | here
        · exact restNew other there before
        · exact distinct.1 (List.mem_map.mpr ⟨other, there, List.mem_singleton.mp here⟩)
      have later := inductionHypothesis restValues distinct.2 longer
      simp only [Json.Members.insert_of_new (new field List.mem_cons_self), Option.map_some]
      rw [later, List.append_assoc]
      rfl

theorem assemble_of_fieldValue {occurrences : List Occurrence}
    {shown : Field → Option Json.Value} {fields : List Field}
    (values : ∀ field ∈ fields,
      fieldValue pool .plain decoder field (contributionsTo field occurrences) =
        .ok (shown field))
    (distinct : (fields.map (·.name)).Nodup) {members : Json.Members}
    (new : ∀ field ∈ fields, field.name ∉ members.map (·.1)) :
    assemble pool .plain decoder occurrences members fields =
      .ok (members ++ shownMembers shown fields) :=
  assemble_membersUnder values distinct new

theorem exists_of_assemble {options : Options} {occurrences : List Occurrence} {fields : List Field}
    {members result : Json.Members}
    (done : assemble pool options decoder occurrences members fields = .ok result) :
    ∀ field ∈ fields, ∃ shown,
      fieldValue pool options decoder field (contributionsTo field occurrences) = .ok shown := by
  induction fields generalizing members with
  | nil => exact List.forall_mem_nil _
  | cons field rest inductionHypothesis =>
    simp only [assemble] at done
    intro other member
    split at done
    · cases done
    · rename_i value
      rcases List.mem_cons.mp member with same | later
      · exact same ▸ ⟨none, value⟩
      · exact inductionHypothesis done other later
    · rename_i shown value
      rcases List.mem_cons.mp member with same | later
      · exact same ▸ ⟨some shown, value⟩
      · exact inductionHypothesis done other later

/-- A document lists the values that its fields show, if their keys differ. -/
theorem eq_membersUnder_of_assemble {options : Options} {occurrences : List Occurrence}
    {shown : Field → Option Json.Value} {fields : List Field}
    (values : ∀ field ∈ fields,
      fieldValue pool options decoder field (contributionsTo field occurrences) =
        .ok (shown field))
    (distinct : (fields.map options.key).Nodup) {members : Json.Members}
    (done : assemble pool options decoder occurrences [] fields = .ok members) :
    members = membersUnder options.key shown fields := by
  have whole : assemble pool options decoder occurrences [] fields =
      .ok (membersUnder options.key shown fields) :=
    assemble_membersUnder values distinct fun _ _ => List.not_mem_nil
  exact Except.ok.inj (done.symm.trans whole)

theorem exists_membersUnder_of_assemble {options : Options} {fields : List Field}
    (distinct : (fields.map options.key).Nodup) {occurrences : List Occurrence}
    {members : Json.Members}
    (done : assemble pool options decoder occurrences [] fields = .ok members) :
    ∃ shown : Field → Option Json.Value, (∀ field ∈ fields,
      fieldValue pool options decoder field (contributionsTo field occurrences) =
        .ok (shown field)) ∧ members = membersUnder options.key shown fields := by
  have choice (field : Field) : ∃ shown, field ∈ fields →
      fieldValue pool options decoder field (contributionsTo field occurrences) = .ok shown := by
    by_cases member : field ∈ fields
    · rcases exists_of_assemble done field member with ⟨shown, value⟩
      exact ⟨shown, fun _ => value⟩
    · exact ⟨none, fun there => absurd there member⟩
  choose shown values using choice
  exact ⟨shown, values, eq_membersUnder_of_assemble values distinct done⟩

theorem exists_shownMembers_of_assemble (indexed : message.Indexed)
    {occurrences : List Occurrence} {members : Json.Members}
    (done : assemble pool .plain decoder occurrences [] message.fields = .ok members) :
    ∃ shown : Field → Option Json.Value, (∀ field ∈ message.fields,
      fieldValue pool .plain decoder field (contributionsTo field occurrences) =
        .ok (shown field)) ∧ members = shownMembers shown message.fields := by
  have distinct : (message.fields.map Options.plain.key).Nodup := indexed.namesDistinct
  exact exists_membersUnder_of_assemble distinct done

/-! ## Fields of a oneof -/

/-- A field that may be absent is not shown without a contribution. -/
theorem fieldValue_nil_of_presence {options : Options} {field : Field}
    (presence : field.hasPresence = true) : fieldValue pool options decoder field [] = .ok none := by
  unfold fieldValue
  cases shape : field.shape with
  | singular type explicit =>
    cases type <;> simp [presence, valuesOf, contentsOf]
  | «repeated» type packed => simp [Field.hasPresence, shape] at presence
  | map id => simp [Field.hasPresence, shape] at presence

theorem hasPresence_of_oneof (wellFormed : message.WellFormed pool) {field : Field}
    (member : field ∈ message.fields) (inOneof : field.oneof.isSome = true) :
    field.hasPresence = true := by
  rcases wellFormed.oneofsSingle field member inOneof with ⟨type, explicit, shape⟩
  simp [Field.hasPresence, shape, inOneof]

/-! ## Messages -/

theorem decodeLevel_eq_ok_iff {options : Options} {payload : Bytes} {document : Json.Value} :
    decodeLevel pool options decoder entryDecoder message payload = .ok document ↔
      ∃ occurrences, readPayload message.fullName
          (occurrence? pool decoder entryDecoder message) payload = .ok occurrences ∧
        ∃ members, assemble pool options decoder occurrences [] message.fields = .ok members ∧
          .object members = document := by
  rw [decodeLevel, Outcome.bind_eq_ok_iff]
  apply exists_congr
  intro occurrences
  rw [Outcome.bind_eq_ok_iff]
  apply and_congr Iff.rfl
  apply exists_congr
  intro members
  exact and_congr Iff.rfl ⟨Except.ok.inj, congrArg Except.ok⟩

/-- An occurrence is one of a field of the message, which some value gives it. -/
theorem exists_of_occurrence? {record : Wire.Record} {occurrence : Occurrence}
    (given : occurrence? pool decoder entryDecoder message record = some (.ok occurrence)) :
    occurrence.field ∈ message.fields ∧ ∃ wire,
      contribution? pool decoder entryDecoder message occurrence.field wire =
        some (.ok occurrence.contribution) := by
  cases holds : record.value with
  | none => simp [occurrence?, holds] at given
  | some wire =>
    cases found : message.fieldByNumber? record.number with
    | none => simp [occurrence?, holds, found] at given
    | some field =>
      rw [occurrence?_of_field holds found] at given
      rcases Option.map_eq_some_iff.mp given with ⟨run, isRun, mapped⟩
      rcases Outcome.map_eq_ok_iff.mp mapped with ⟨contribution, ok, isOccurrence⟩
      subst isOccurrence
      exact ⟨mem_of_fieldByNumber? found, wire, ok ▸ isRun⟩

/-- The occurrences in a payload are of fields of the message, which some values give them. -/
theorem exists_of_readPayload {payload : Bytes} {occurrences : List Occurrence}
    (read : readPayload message.fullName (occurrence? pool decoder entryDecoder message) payload =
      .ok occurrences) :
    ∀ occurrence ∈ occurrences, occurrence.field ∈ message.fields ∧ ∃ wire,
      contribution? pool decoder entryDecoder message occurrence.field wire =
        some (.ok occurrence.contribution) := by
  intro occurrence there
  rcases exists_of_readRecords (readPayload_eq_ok_iff.mp read).1 occurrence there with
    ⟨record, given⟩
  exact exists_of_occurrence? given

/-- Contributions to a field of which each is what the field reads of some value. -/
def Sourced (pool : Pool) (decoder entryDecoder : Decoder) (message : Message) (field : Field)
    (contributions : List Contribution) : Prop :=
  ∀ contribution ∈ contributions, ∃ wire,
    contribution? pool decoder entryDecoder message field wire = some (.ok contribution)

/-- What counts for a field is given by values that it reads. -/
theorem sourced_contributionsTo (indexed : message.Indexed) {payload : Bytes}
    {occurrences : List Occurrence}
    (read : readPayload message.fullName (occurrence? pool decoder entryDecoder message) payload =
      .ok occurrences) {field : Field} (member : field ∈ message.fields) :
    Sourced pool decoder entryDecoder message field (contributionsTo field occurrences) := by
  intro contribution there
  rcases mem_contributionsTo there with ⟨occurrence, kept, number, isContribution⟩
  have source := exists_of_readPayload read occurrence
    (List.mem_reverse.mp ((List.takeWhile_sublist _).mem kept))
  have isField := indexed.eq_of_number source.1 member number
  exact isField ▸ isContribution ▸ source.2

/-- Every document shows the values of contributions that come from the payload, of every
oneof of one field at most. -/
theorem exists_of_decodeLevel (indexed : message.Indexed) {payload : Bytes}
    {document : Json.Value}
    (decoded : decodeLevel pool .plain decoder entryDecoder message payload = .ok document) :
    ∃ (found : Field → List Contribution) (shown : Field → Option Json.Value),
      (∀ field ∈ message.fields,
        Sourced pool decoder entryDecoder message field (found field)) ∧
      Exclusive message (fun field => found field ≠ []) ∧
      (∀ field ∈ message.fields,
        fieldValue pool .plain decoder field (found field) = .ok (shown field)) ∧
      document = .object (shownMembers shown message.fields) := by
  rcases decodeLevel_eq_ok_iff.mp decoded with ⟨occurrences, read, members, assembled, same⟩
  rcases exists_shownMembers_of_assemble indexed assembled with ⟨shown, values, isShown⟩
  refine ⟨fun field => contributionsTo field occurrences, shown, ?_, ?_, values, ?_⟩
  · exact fun field member => sourced_contributionsTo indexed read member
  · exact exclusive_contributionsTo indexed fun occurrence there =>
      (exists_of_readPayload read occurrence there).1
  · exact (isShown ▸ same).symm

/-- What is written for the fields of a message is shown as its values. -/
theorem decodeLevel_writtenFields (indexed : message.Indexed) {wires : Field → List Wire.Value}
    {shown : Field → Option Json.Value}
    (fits : ∀ field ∈ message.fields, ∀ wire ∈ wires field, wire.Fits)
    (contribute : ∀ field ∈ message.fields,
      Contribute pool decoder entryDecoder message field (wires field))
    (exclusive : Exclusive message fun field => wires field ≠ [])
    (values : ∀ field ∈ message.fields, fieldValue pool .plain decoder field
      (contributionsOf pool decoder entryDecoder message field (wires field)) =
        .ok (shown field)) :
    decodeLevel pool .plain decoder entryDecoder message (writtenFields message wires) =
      .ok (.object (shownMembers shown message.fields)) := by
  have each : ∀ field ∈ message.fields, fieldValue pool .plain decoder field (contributionsTo field
      (writtenOccurrences pool decoder entryDecoder message wires)) = .ok (shown field) := by
    intro field member
    rw [contributionsTo_writtenOccurrences indexed exclusive member]
    exact values field member
  have assembled : assemble pool .plain decoder
      (writtenOccurrences pool decoder entryDecoder message wires) [] message.fields =
        .ok (shownMembers shown message.fields) :=
    assemble_of_fieldValue each indexed.namesDistinct fun _ _ => List.not_mem_nil
  exact decodeLevel_eq_ok_iff.mpr
    ⟨_, readPayload_writtenFields indexed fits contribute, _, assembled, rfl⟩

/-- What is shown of a payload that was written field by field are the values of what was
written. -/
theorem exists_of_decodeLevel_writtenFields (indexed : message.Indexed)
    {wires : Field → List Wire.Value}
    (fits : ∀ field ∈ message.fields, ∀ wire ∈ wires field, wire.Fits) {document : Json.Value}
    (decoded : decodeLevel pool .plain decoder entryDecoder message (writtenFields message wires) =
      .ok document)
    (never : ∀ field ∈ message.fields, ∀ wire ∈ wires field,
      contribution? pool decoder entryDecoder message field wire ≠ none)
    (exclusive : Exclusive message fun field => wires field ≠ []) :
    (∀ field ∈ message.fields,
        Contribute pool decoder entryDecoder message field (wires field)) ∧
      ∃ shown : Field → Option Json.Value, (∀ field ∈ message.fields,
        fieldValue pool .plain decoder field
          (contributionsOf pool decoder entryDecoder message field (wires field)) =
            .ok (shown field)) ∧
        document = .object (shownMembers shown message.fields) := by
  rcases decodeLevel_eq_ok_iff.mp decoded with ⟨occurrences, read, members, assembled, same⟩
  have contribute := contribute_of_readPayload indexed fits read never
  have whole := readPayload_writtenFields indexed fits contribute
  have isWritten := Except.ok.inj (read.symm.trans whole)
  subst isWritten
  rcases exists_shownMembers_of_assemble indexed assembled with ⟨shown, values, isShown⟩
  refine ⟨contribute, shown, ?_, (isShown ▸ same).symm⟩
  intro field member
  rw [← contributionsTo_writtenOccurrences indexed exclusive member]
  exact values field member

end Fields

end SchemaRecords.Payload
