import Mathlib.Logic.Relation
import SchemaRecords.Proofs.Payload.OwnedRecords
import SchemaRecords.Proofs.Payload.SpareLevels

/-!
# Messages inside of messages

A payload of a message holds payloads of the messages in its fields.  For an element of a repeated
field, an entry of a map and the value of an entry, this is the content of one record.  For a single
message it is what all contents of the field make up when they are joined, from those records on
that no record of another member of the oneof comes behind.  These are found in the records alone,
without any decoding.

A message is decoded only if all that it holds is.  The decoders of what it holds have fewer levels
left, but what they decode can be decoded with more.
-/

namespace SchemaRecords

namespace Schema

/-- Whether a record ends what came before it for a field: it belongs to another member of the same
oneof. -/
def Message.displaces (message : Message) (record : Wire.Record) (field : Field) : Bool :=
  (message.owner? record).any fun owner =>
    field.oneof.isSome && owner.oneof = field.oneof && owner.number ≠ field.number

end Schema

namespace Payload

open SchemaRecords.Schema

/-! ## Held payloads -/

/-- The content of a delimited value. -/
def content? : Wire.Value → Option Bytes
  | .delimited content => some content
  | _ => none

/-- The contents in the records that have some number. -/
def contentsNumbered (number : Nat) (payload : Bytes) : List Bytes :=
  (valuesNumbered number payload).filterMap content?

/-- The contents in the records of a field that come behind the last one that displaces it. -/
def currentContents (message : Message) (field : Field) (payload : Bytes) : List Bytes :=
  let current := ((Wire.Record.split payload).1.reverse.takeWhile fun record =>
    !message.displaces record field).reverse
  (current.filter fun record => record.number = field.number).filterMap fun record =>
    record.value.bind content?

/-- What a payload of one message holds as the payload of another. -/
inductive Holds (pool : Pool) : Message × Bytes → Message × Bytes → Prop
  | element {message next : Message} {payload content : Bytes} {field : Field} {id : MessageId}
      {packed : Bool} (notEntry : message.isMapEntry = false) (member : field ∈ message.fields)
      (shape : field.shape = .repeated (.message id) packed) (found : pool.message? id = some next)
      (there : content ∈ contentsNumbered field.number payload) :
      Holds pool (message, payload) (next, content)
  | entry {message entry : Message} {payload content : Bytes} {field : Field} {id : MessageId}
      (notEntry : message.isMapEntry = false) (member : field ∈ message.fields)
      (shape : field.shape = .map id) (found : pool.message? id = some entry)
      (there : content ∈ contentsNumbered field.number payload) :
      Holds pool (message, payload) (entry, content)
  | value {entry next : Message} {payload content : Bytes} {key : Scalar} {id : MessageId}
      (isEntry : entry.isMapEntry = true)
      (fields : entry.fields = [.entryKey key, .entryValue (.message id)])
      (found : pool.message? id = some next) (there : content ∈ contentsNumbered 2 payload) :
      Holds pool (entry, payload) (next, content)
  | joined {message next : Message} {payload : Bytes} {field : Field} {id : MessageId}
      {explicit : Bool} (notEntry : message.isMapEntry = false) (member : field ∈ message.fields)
      (shape : field.shape = .singular (.message id) explicit)
      (found : pool.message? id = some next)
      (given : currentContents message field payload ≠ []) :
      Holds pool (message, payload) (next, (currentContents message field payload).flatten)

section Messages

variable {pool : Pool} {options : Options} {decoder entryDecoder : Decoder} {message : Message}
  {field : Field} {payload content : Bytes}

theorem exists_record_of_content {number : Nat}
    (there : content ∈ contentsNumbered number payload) :
    ∃ record ∈ (Wire.Record.split payload).1, record.number = number ∧
      record.value = some (.delimited content) := by
  rcases List.mem_filterMap.mp there with ⟨value, isValue, isContent⟩
  rcases List.mem_filterMap.mp isValue with ⟨record, numbered, given⟩
  rcases List.mem_filter.mp numbered with ⟨inside, number⟩
  refine ⟨record, inside, of_decide_eq_true number, ?_⟩
  cases value with
  | delimited held => rw [given, Option.some.inj isContent]
  | varint word => cases isContent
  | fixed64 word => cases isContent
  | fixed32 word => cases isContent

/-- The content of a record is one of those of its number. -/
theorem mem_contentsNumbered {record : Wire.Record} {payload content : Bytes}
    (inside : record ∈ (Wire.Record.split payload).1)
    (isValue : record.value = some (.delimited content)) :
    content ∈ contentsNumbered record.number payload := by
  apply List.mem_filterMap.mpr
  refine ⟨.delimited content, List.mem_filterMap.mpr ⟨record, ?_, isValue⟩, rfl⟩
  exact List.mem_filter.mpr ⟨inside, decide_eq_true rfl⟩

/-! ## Contents that count -/

theorem takeWhile_congr_of_mem {α : Type} {p q : α → Bool} {list : List α}
    (agree : ∀ element ∈ list, p element = q element) : list.takeWhile p = list.takeWhile q := by
  induction list with
  | nil => rfl
  | cons first rest inductionHypothesis =>
    have later := inductionHypothesis fun element there =>
      agree element (List.mem_cons_of_mem _ there)
    rw [List.takeWhile_cons, List.takeWhile_cons, agree first List.mem_cons_self, later]

/-- The occurrence that a record is belongs to the field that the record does. -/
theorem owner?_of_occurrence? {record : Wire.Record} {occurrence : Occurrence}
    (given : occurrence? pool decoder entryDecoder message record = some (.ok occurrence)) :
    message.owner? record = some occurrence.field := by
  have owned : (occurrence? pool decoder entryDecoder message record).isSome = true := by
    rw [given]
    rfl
  rw [isSome_occurrence?] at owned
  rcases Option.isSome_iff_exists.mp owned with ⟨owner, isOwner⟩
  rcases Message.owner?_eq_some_iff.mp isOwner with ⟨value, holds, found, _⟩
  rw [occurrence?_of_field holds found] at given
  rcases Option.map_eq_some_iff.mp given with ⟨run, _, mapped⟩
  rcases Outcome.map_eq_ok_iff.mp mapped with ⟨contribution, _, same⟩
  rw [isOwner, ← same]

/-- An occurrence displaces what its record does. -/
theorem all_displaces {record : Wire.Record} (accepted : ∀ refusal,
    occurrence? pool decoder entryDecoder message record ≠ some (.error refusal)) (field : Field) :
    ((occurrence? pool decoder entryDecoder message record).bind Except.toOption).all
        (fun occurrence => !occurrence.displaces field) =
      !message.displaces record field := by
  cases given : occurrence? pool decoder entryDecoder message record with
  | none =>
    have foreign : ¬ (occurrence? pool decoder entryDecoder message record).isSome = true := by
      rw [given]
      exact Bool.false_ne_true
    rw [isSome_occurrence?, Option.not_isSome_iff_eq_none] at foreign
    rw [Message.displaces, foreign]
    rfl
  | some run =>
    cases run with
    | error refusal => exact absurd given (accepted refusal)
    | ok occurrence =>
      rw [Message.displaces, owner?_of_occurrence? given]
      rfl

/-- A field of single messages is given the contents of its own records. -/
theorem content_of_occurrence? (indexed : message.Indexed) (member : field ∈ message.fields)
    {id : MessageId} {explicit : Bool} (shape : field.shape = .singular (.message id) explicit)
    (record : Wire.Record) :
    (((occurrence? pool decoder entryDecoder message record).bind Except.toOption).filter
        (fun occurrence => occurrence.field.number = field.number)).bind
        (fun occurrence =>
          match occurrence.contribution with
          | .content bytes => some bytes
          | _ => none) =
      if record.number = field.number then record.value.bind content? else none := by
  by_cases own : record.number = field.number
  · rw [occurrence?_own indexed member own, if_pos own]
    cases record.value with
    | none => rfl
    | some value =>
      rw [Option.bind_some, Option.bind_some, contribution?.eq_def, shape]
      cases value with
      | delimited content =>
        simp only [Option.map_some, Except.map, Option.bind_some, Except.toOption,
          Option.filter_some, decide_true, if_true, content?]
      | varint word => rfl
      | fixed64 word => rfl
      | fixed32 word => rfl
  · rw [if_neg own]
    cases given : occurrence? pool decoder entryDecoder message record with
    | none => rfl
    | some run =>
      cases run with
      | error refusal => rfl
      | ok occurrence =>
        have other : ¬ occurrence.field.number = field.number :=
          number_of_occurrence? indexed given ▸ own
        simp [Except.toOption, Option.filter, other]

/-- The contents that a single message is made of are those that count in the payload. -/
theorem contentsOf_contributionsTo (indexed : message.Indexed) (member : field ∈ message.fields)
    {id : MessageId} {explicit : Bool} (shape : field.shape = .singular (.message id) explicit)
    {occurrences : List Occurrence}
    (read : readPayload message.fullName (occurrence? pool decoder entryDecoder message) payload =
      .ok occurrences) :
    contentsOf (contributionsTo field occurrences) = currentContents message field payload := by
  rcases readPayload_eq_ok_iff_understood.mp read with ⟨-, accepted, rfl⟩
  have agree : ∀ record ∈ (Wire.Record.split payload).1.reverse, _ = _ := fun record there =>
    all_displaces (accepted record (List.mem_reverse.mp there)) field
  rw [contributionsTo, understood, ← List.filterMap_reverse,
    List.takeWhile_filterMap, takeWhile_congr_of_mem agree, ← List.filterMap_reverse,
    List.filter_filterMap, contentsOf, List.filterMap_map, List.filterMap_filterMap,
    currentContents, List.filterMap_filter]
  apply List.filterMap_congr
  intro record _
  simp only [decide_eq_true_eq]
  exact content_of_occurrence? indexed member shape record

/-- Outside of all oneofs every content of a field counts. -/
theorem currentContents_of_alone (alone : field.oneof = none) (message : Message)
    (payload : Bytes) :
    currentContents message field payload = contentsNumbered field.number payload := by
  have undisturbed : ∀ record ∈ (Wire.Record.split payload).1.reverse,
      (!message.displaces record field) = true := by
    intro record _
    rw [Message.displaces, alone]
    cases message.owner? record <;> rfl
  rw [currentContents, List.takeWhile_eq_self_iff.mpr undisturbed, List.reverse_reverse,
    contentsNumbered, valuesNumbered, recordsNumbered, List.filterMap_filterMap]

/-! ## Accepted payloads -/

/-- Whether a payload is accepted: that of a map entry by the decoder of the values of entries, any
other by that of messages. -/
def Accepted (pool : Pool) (decoder entryDecoder : Decoder) (part : Message × Bytes) : Prop :=
  if part.1.isMapEntry then ∃ entry, decodeEntry pool entryDecoder part.1 part.2 = .ok entry
  else ∃ document, decoder part.1 part.2 = .ok document

theorem accepted_iff (notEntry : message.isMapEntry = false) :
    Accepted pool decoder entryDecoder (message, payload) ↔
      ∃ document, decoder message payload = .ok document := by
  rw [Accepted, if_neg (by rw [notEntry]; exact Bool.false_ne_true)]

theorem accepted_entry_iff (isEntry : message.isMapEntry = true) :
    Accepted pool decoder entryDecoder (message, payload) ↔
      ∃ entry, decodeEntry pool entryDecoder message payload = .ok entry := by
  rw [Accepted, if_pos isEntry]

theorem Accepted.mono {first second firstEntry secondEntry : Decoder} {part : Message × Bytes}
    (within : first.Within second) (withinEntry : firstEntry.Within secondEntry)
    (accepted : Accepted pool first firstEntry part) : Accepted pool second secondEntry part := by
  unfold Accepted at accepted ⊢
  split
  · rename_i isEntry
    rw [if_pos isEntry] at accepted
    rcases accepted with ⟨entry, decoded⟩
    rcases withinEntry.decodeEntry part.1 part.2 entry decoded with ⟨other, decodedToo, _⟩
    exact ⟨other, decodedToo⟩
  · rename_i notEntry
    rw [if_neg notEntry] at accepted
    rcases accepted with ⟨document, decoded⟩
    rcases within part.1 part.2 document decoded with ⟨other, decodedToo, _⟩
    exact ⟨other, decodedToo⟩

theorem exists_of_inField {α : Type} {name : String} {run : Decoded α}
    (accepted : ∀ refusal, inField name run ≠ .error refusal) : ∃ value, run = .ok value := by
  cases run with
  | ok value => exact ⟨value, rfl⟩
  | error refusal => exact absurd rfl (accepted (.inField name refusal))

theorem exists_of_follow {id : MessageId} {next : Message} (found : pool.message? id = some next)
    (name : String) (accepted : ∀ refusal,
      inField name (decoder.follow pool id content) ≠ .error refusal) :
    ∃ document, decoder next content = .ok document := by
  rcases exists_of_inField accepted with ⟨document, isDocument⟩
  rw [Decoder.follow, found] at isDocument
  exact ⟨document, isDocument⟩

/-- No content of a field is refused. -/
theorem ne_error_of_content (indexed : message.Indexed) (member : field ∈ message.fields)
    {occurrences : List Occurrence}
    (read : readPayload message.fullName (occurrence? pool decoder entryDecoder message) payload =
      .ok occurrences) (there : content ∈ contentsNumbered field.number payload)
    (refusal : DecodeError) :
    contribution? pool decoder entryDecoder message field (.delimited content) ≠
      some (.error refusal) := by
  intro refused
  rcases exists_record_of_content there with ⟨record, inside, own, isValue⟩
  apply (readPayload_eq_ok_iff_understood.mp read).2.1 record inside refusal
  rw [occurrence?_own indexed member own, isValue, Option.bind_some, refused]
  rfl

/-- Whatever a message holds is accepted by the decoders of the messages in it. -/
theorem Accepted.of_decodeLevel (wellFormed : pool.WellFormed) (held : message ∈ pool.messages)
    (notEntry : message.isMapEntry = false) {document : Json.Value}
    (decoded : decodeLevel pool options decoder entryDecoder message payload = .ok document)
    {part : Message × Bytes} (holds : Holds pool (message, payload) part) :
    Accepted pool decoder entryDecoder part := by
  have facts := wellFormed.messages message held
  rcases decodeLevel_eq_ok_iff.mp decoded with ⟨occurrences, read, members, assembled, _⟩
  cases holds with
  | @element _ next _ content field id packed _ member shape found there =>
    have known := facts.nameable field member (by rw [Field.isMap, shape])
    rw [Field.type_of_shape shape] at known
    rcases known with ⟨_, foundToo, nextNotEntry⟩
    cases found.symm.trans foundToo
    have given : contribution? pool decoder entryDecoder message field (.delimited content) =
        some ((inField field.name (decoder.follow pool id content)).map fun element =>
          .elements [element]) := by
      rw [contribution?.eq_def, shape]
      rfl
    refine (accepted_iff nextNotEntry).mpr (exists_of_follow found field.name
      fun refusal refused => ?_)
    apply ne_error_of_content facts.indexed member read there refusal
    rw [given, refused]
    rfl
  | @entry _ entry _ content field id _ member shape found there =>
    rcases facts.entries field member id shape with ⟨_, foundToo, isEntry, _⟩
    cases found.symm.trans foundToo
    have given : contribution? pool decoder entryDecoder message field (.delimited content) =
        some (inField field.name ((decodeEntryAt pool entryDecoder id content).map
          fun entry => .entry entry.1 entry.2)) := by
      rw [contribution?.eq_def, shape]
    rcases exists_of_inField fun refusal refused =>
      ne_error_of_content facts.indexed member read there refusal
        (given.trans (congrArg some refused))
      with ⟨contribution, isContribution⟩
    rcases Outcome.map_eq_ok_iff.mp isContribution with ⟨member, isMember, _⟩
    rw [decodeEntryAt, found] at isMember
    exact (accepted_entry_iff isEntry).mpr ⟨member, isMember⟩
  | value isEntry => cases notEntry.symm.trans isEntry
  | @joined _ next _ field id explicit _ member shape found given =>
    have known := facts.nameable field member (by rw [Field.isMap, shape])
    rw [Field.type_of_shape shape] at known
    rcases known with ⟨_, foundToo, nextNotEntry⟩
    cases found.symm.trans foundToo
    rcases exists_of_assemble assembled field member with ⟨shown, isShown⟩
    rw [fieldValue, shape, contentsOf_contributionsTo facts.indexed member shape read] at isShown
    dsimp only at isShown
    split at isShown
    · rename_i none
      exact absurd none given
    · rcases Outcome.map_eq_ok_iff.mp isShown with ⟨value, isValue, _⟩
      refine (accepted_iff nextNotEntry).mpr (exists_of_follow found field.name
        fun refusal refused => ?_)
      cases isValue.symm.trans refused

/-- Whatever an entry holds is accepted by the decoder of its value. -/
theorem Accepted.of_decodeEntry (wellFormed : pool.WellFormed) (held : message ∈ pool.messages)
    (isEntry : message.isMapEntry = true) {member : String × Json.Value}
    (decoded : decodeEntry pool decoder message payload = .ok member)
    {part : Message × Bytes} (holds : Holds pool (message, payload) part) :
    Accepted pool decoder entryDecoder part := by
  cases holds with
  | element notEntry => cases notEntry.symm.trans isEntry
  | entry notEntry => cases notEntry.symm.trans isEntry
  | joined notEntry => cases notEntry.symm.trans isEntry
  | @value _ next _ content key id _ fields found there =>
    have member : Field.entryValue (.message id) ∈ message.fields := by
      rw [fields]
      exact List.mem_cons_of_mem _ List.mem_cons_self
    rcases (wellFormed.messages message held).nameable _ member rfl with
      ⟨_, foundToo, nextNotEntry⟩
    cases found.symm.trans foundToo
    simp only [decodeEntry, fields] at decoded
    rcases Outcome.bind_eq_ok_iff.mp decoded with ⟨parts, read, _⟩
    rcases exists_record_of_content there with ⟨record, inside, number, isValue⟩
    have given : readEntryPart pool decoder message.fullName (.entryKey key)
        (.entryValue (.message id)) record =
          some ((inField "value" (decoder.follow pool id content)).map .value) := by
      rw [readEntryPart, isValue, number]
      rfl
    refine (accepted_iff nextNotEntry).mpr
      (exists_of_follow found "value" fun refusal refused => ?_)
    apply (readPayload_eq_ok_iff_understood.mp read).2.1 record inside refusal
    rw [given, refused]
    rfl

end Messages

theorem Holds.mem_messages {pool : Pool} {part inner : Message × Bytes}
    (holds : Holds pool part inner) : inner.1 ∈ pool.messages := by
  cases holds with
  | element _ _ _ found => exact List.mem_of_getElem? found
  | entry _ _ _ found => exact List.mem_of_getElem? found
  | value _ _ found => exact List.mem_of_getElem? found
  | joined _ _ _ found => exact List.mem_of_getElem? found

/-! ## Accepted at any depth -/

section Depth

variable {pool : Pool} {options : Options} {levels : Nat} {part inner : Message × Bytes}

/-- Whatever an accepted part holds is accepted too.  It has fewer levels left where it is, but it
can be given as many. -/
theorem Accepted.of_holds (wellFormed : pool.WellFormed) (held : part.1 ∈ pool.messages)
    (accepted : Accepted pool (decodeWithin pool options levels)
      (decodeWithin pool options (levels - 1)) part) (holds : Holds pool part inner) :
    Accepted pool (decodeWithin pool options levels) (decodeWithin pool options (levels - 1))
      inner := by
  rcases part with ⟨message, payload⟩
  cases isEntry : message.isMapEntry with
  | false =>
    rcases (accepted_iff isEntry).mp accepted with ⟨document, decoded⟩
    cases levels with
    | zero => cases decoded
    | succ below =>
      rw [decodeWithin_succ] at decoded
      exact (Accepted.of_decodeLevel wellFormed held isEntry decoded holds).mono
        (within_of_le pool options (Nat.le_succ below))
        (within_of_le pool options (Nat.sub_le below 1))
  | true =>
    rcases (accepted_entry_iff isEntry).mp accepted with ⟨member, decoded⟩
    exact (Accepted.of_decodeEntry wellFormed held isEntry decoded holds).mono
      (within_of_le pool options (Nat.sub_le levels 1)) (.refl _)

/-- By induction on the depth. -/
theorem Accepted.of_transGen (wellFormed : pool.WellFormed) (held : part.1 ∈ pool.messages)
    (accepted : Accepted pool (decodeWithin pool options levels)
      (decodeWithin pool options (levels - 1)) part)
    (holds : Relation.TransGen (Holds pool) part inner) :
    inner.1 ∈ pool.messages ∧
      Accepted pool (decodeWithin pool options levels) (decodeWithin pool options (levels - 1))
        inner := by
  induction holds with
  | single first => exact ⟨first.mem_messages, accepted.of_holds wellFormed held first⟩
  | tail _ next inductionHypothesis =>
    rcases inductionHypothesis with ⟨outerHeld, outerAccepted⟩
    exact ⟨next.mem_messages, outerAccepted.of_holds wellFormed outerHeld next⟩

end Depth

/-! ## Entries that give their value once -/

section Once

variable {pool : Pool}

/-- No entry of a map in a part, at any depth, gives its message more than once. -/
def ValuesOnce (pool : Pool) (part : Message × Bytes) : Prop :=
  ∀ entry content, Relation.ReflTransGen (Holds pool) part (entry, content) →
    entry.isMapEntry = true → ∀ key id, entry.fields = [.entryKey key, .entryValue (.message id)] →
      (contentsNumbered 2 content).length ≤ 1

theorem Holds.reaches {part inner : Message × Bytes} (holds : Holds pool part inner) :
    pool.Reaches part.1 inner.1 := by
  cases holds with
  | element _ member shape found => exact .of_shape member shape rfl found
  | entry _ member shape found => exact .of_shape member shape rfl found
  | @value entry next _ _ key id _ fields found _ =>
    have member : Field.entryValue (.message id) ∈ entry.fields := by
      rw [fields]
      exact List.mem_cons_of_mem _ List.mem_cons_self
    exact .step .refl member rfl found
  | joined _ member shape found => exact .of_shape member shape rfl found

/-- An empty payload holds nothing. -/
theorem not_holds_nil (message : Message) (inner : Message × Bytes) :
    ¬ Holds pool (message, []) inner := by
  have nothing : Wire.Record.split [] = ([], none) := by
    rw [Wire.Record.split.eq_def]
  have noContents (number : Nat) : contentsNumbered number [] = [] := by
    rw [contentsNumbered, valuesNumbered, recordsNumbered, nothing]
    rfl
  intro holds
  cases holds with
  | element _ _ _ _ there => cases noContents _ ▸ there
  | entry _ _ _ _ there => cases noContents _ ▸ there
  | value _ _ _ there => cases noContents _ ▸ there
  | joined _ _ _ _ given =>
    rw [currentContents, nothing] at given
    exact given rfl

/-- A message with nothing but simple fields holds nothing. -/
theorem not_holds_of_simple {message : Message} (simple : ∀ field ∈ message.fields,
    ∃ type explicit, field.shape = .singular type explicit ∧ type.isMessage = false)
    {payload : Bytes} (inner : Message × Bytes) : ¬ Holds pool (message, payload) inner := by
  intro holds
  cases holds with
  | element _ member shape =>
    rcases simple _ member with ⟨_, _, isSimple, _⟩
    cases shape.symm.trans isSimple
  | entry _ member shape =>
    rcases simple _ member with ⟨_, _, isSimple, _⟩
    cases shape.symm.trans isSimple
  | value _ fields =>
    rcases simple _ (fields ▸ List.mem_cons_of_mem _ List.mem_cons_self) with
      ⟨_, _, isSimple, notMessage⟩
    cases isSimple
    cases notMessage
  | joined _ member shape =>
    rcases simple _ member with ⟨_, _, isSimple, notMessage⟩
    cases shape.symm.trans isSimple
    cases notMessage

/-- What a part says of its own value and of what it holds it says of all. -/
theorem ValuesOnce.of_parts {part : Message × Bytes}
    (here : part.1.isMapEntry = true → (contentsNumbered 2 part.2).length ≤ 1)
    (each : ∀ inner, Holds pool part inner → ValuesOnce pool inner) : ValuesOnce pool part := by
  intro entry content further isEntry key id fields
  rcases further.cases_head with same | ⟨inner, holds, rest⟩
  · subst same
    exact here isEntry
  · exact each inner holds entry content rest isEntry key id fields

end Once
end Payload
end SchemaRecords
