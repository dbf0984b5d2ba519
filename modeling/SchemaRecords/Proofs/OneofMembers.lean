import SchemaRecords.Proofs.RecordOrder
import SchemaRecords.Proofs.Schema.GivenCharacters
import SchemaRecords.Proofs.Schema.IndexPositions

/-!
# Members of a oneof

Of the members of a oneof a document shows the one that came last.  Records that have the number of
a member, but are laid out in a way that it does not read, do not count; and among those that do
count, only the last decides.  Whether its value is the default makes no difference, nor whether
defaults are shown: a member that is set is shown, and one that is not set is left out.

A message that came last is made of all its contents since the last record of another member.  What
came before was displaced by that record, even if it belonged to the same field.
-/

namespace SchemaRecords

namespace Schema

/-- The member of a oneof that the last of all records of its members belongs to. -/
def Message.lastMember? (message : Message) (oneof : Oneof) (payload : Bytes) : Option Field :=
  (((Wire.Record.split payload).1.filterMap message.owner?).filter fun owner =>
    message.hasMember oneof owner.number).getLast?

theorem Message.Indexed.of_lastMember? {message : Message} (indexed : message.Indexed)
    {index : Nat} {oneof : Oneof} (listed : message.oneofs[index]? = some oneof) {payload : Bytes}
    {field : Field} (last : message.lastMember? oneof payload = some field) :
    field ∈ message.fields ∧ field.oneof = some index := by
  rcases List.mem_filter.mp (List.mem_of_getLast? last) with ⟨isOwner, hasMember⟩
  rcases List.mem_filterMap.mp isOwner with ⟨record, _, owner⟩
  rcases Message.owner?_eq_some_iff.mp owner with ⟨_, _, numbered, _⟩
  have member := Payload.mem_of_fieldByNumber? numbered
  exact ⟨member, (indexed.hasMember_iff listed member).mp hasMember⟩

end Schema

namespace Payload

open SchemaRecords.Schema

/-! ## The last record that counts -/

/-- An element is in front of all other elements of its kind exactly if it is the first of them. -/
theorem mem_takeWhile_iff_find? {α : Type} [DecidableEq α] {p : α → Bool} {element : α}
    (isKind : p element = true) {list : List α} :
    element ∈ list.takeWhile (fun other => !(p other && decide (other ≠ element))) ↔
      list.find? p = some element := by
  induction list with
  | nil => simp
  | cons first rest inductionHypothesis =>
    rw [List.takeWhile_cons, List.find?_cons]
    by_cases same : first = element
    · simp [same, isKind]
    · have different : element ≠ first := fun isFirst => same isFirst.symm
      cases kind : p first with
      | true => simp [same]
      | false =>
        rw [Bool.false_and, Bool.not_false, if_pos rfl, List.mem_cons, or_iff_right different]
        exact inductionHypothesis

section Messages

variable {pool : Pool} {options : Options} {decoder entryDecoder : Decoder} {message : Message}
  {field : Field} {occurrences : List Occurrence} {payload : Bytes}

/-- A member of a oneof is given something exactly if the last occurrence of all members is its
own. -/
theorem contributionsTo_ne_nil_iff (indexed : message.Indexed) {index : Nat} {oneof : Oneof}
    (listed : message.oneofs[index]? = some oneof) (member : field ∈ message.fields)
    (inOneof : field.oneof = some index)
    (declared : ∀ occurrence ∈ occurrences, occurrence.field ∈ message.fields) :
    contributionsTo field occurrences ≠ [] ↔
      ((occurrences.map (·.field)).filter fun owner =>
        message.hasMember oneof owner.number).getLast? = some field := by
  have isKind := (indexed.hasMember_iff listed member).mpr inOneof
  have displaces : ∀ occurrence ∈ occurrences.reverse, (!occurrence.displaces field) =
      !(message.hasMember oneof occurrence.field.number && decide (occurrence.field ≠ field)) := by
    intro occurrence there
    have known := declared occurrence (List.mem_reverse.mp there)
    have sameOneof : decide (occurrence.field.oneof = field.oneof) =
        message.hasMember oneof occurrence.field.number := by
      rw [inOneof, Bool.eq_iff_iff, decide_eq_true_iff]
      exact (indexed.hasMember_iff listed known).symm
    have sameField : occurrence.field.number ≠ field.number ↔ occurrence.field ≠ field :=
      not_congr ⟨indexed.eq_of_number known member, congrArg Field.number⟩
    rw [Occurrence.displaces, sameOneof, inOneof, decide_eq_decide.mpr sameField]
    rfl
  have found := @mem_takeWhile_iff_find? Field _ (fun owner => message.hasMember oneof owner.number)
    field isKind (occurrences.map (·.field)).reverse
  rw [← List.head?_filter, List.filter_reverse, List.head?_reverse, ← List.map_reverse,
    List.takeWhile_map] at found
  rw [← found, contributionsTo, takeWhile_congr_of_mem displaces]
  simp only [ne_eq, List.map_eq_nil_iff, List.filter_eq_nil_iff, List.mem_reverse, not_forall,
    not_not, decide_eq_true_eq, List.mem_map, exists_prop]
  apply exists_congr
  intro occurrence
  apply and_congr_right
  intro kept
  have known := declared occurrence (List.mem_reverse.mp ((List.takeWhile_sublist _).mem kept))
  exact ⟨indexed.eq_of_number known member, congrArg Field.number⟩

/-- The fields that occur in a payload are those that its records belong to. -/
theorem map_field_of_readPayload
    (read : readPayload message.fullName (occurrence? pool decoder entryDecoder message) payload =
      .ok occurrences) :
    occurrences.map (·.field) = (Wire.Record.split payload).1.filterMap message.owner? := by
  rcases readPayload_eq_ok_iff_understood.mp read with ⟨_, accepted, rfl⟩
  rw [understood, List.map_filterMap]
  apply List.filterMap_congr
  intro record there
  cases given : occurrence? pool decoder entryDecoder message record with
  | none =>
    have foreign : ¬ (occurrence? pool decoder entryDecoder message record).isSome = true := by
      rw [given]
      exact Bool.false_ne_true
    rw [isSome_occurrence?, Option.not_isSome_iff_eq_none] at foreign
    exact foreign.symm
  | some run =>
    cases run with
    | error refusal => exact absurd given (accepted record there refusal)
    | ok occurrence => exact (owner?_of_occurrence? given).symm

theorem contributionsTo_ne_nil_iff_lastMember? (indexed : message.Indexed) {index : Nat}
    {oneof : Oneof} (listed : message.oneofs[index]? = some oneof) (member : field ∈ message.fields)
    (inOneof : field.oneof = some index)
    (read : readPayload message.fullName (occurrence? pool decoder entryDecoder message) payload =
      .ok occurrences) :
    contributionsTo field occurrences ≠ [] ↔ message.lastMember? oneof payload = some field := by
  rw [contributionsTo_ne_nil_iff indexed listed member inOneof fun occurrence there =>
    (exists_of_readPayload read occurrence there).1, map_field_of_readPayload read]
  rfl

/-! ## Values of members -/

/-- A single message that is given some content is decoded from all of it. -/
theorem fieldValue_of_contents {id : MessageId} {explicit : Bool}
    (shape : field.shape = .singular (.message id) explicit) {contributions : List Contribution}
    (given : contentsOf contributions ≠ []) :
    fieldValue pool options decoder field contributions = (inField field.name
      (decoder.follow pool id (contentsOf contributions).flatten)).map some := by
  rw [fieldValue_of_message shape]
  split
  · rename_i none
    exact absurd none given
  · rfl

/-- A single message is given content by each of its records. -/
theorem contentsOf_ne_nil {id : MessageId} {explicit : Bool}
    (shape : field.shape = .singular (.message id) explicit) {contributions : List Contribution}
    (sources : Sourced pool decoder entryDecoder message field contributions)
    (given : contributions ≠ []) : contentsOf contributions ≠ [] := by
  rcases List.exists_mem_of_ne_nil _ given with ⟨contribution, there⟩
  rcases sources contribution there with ⟨wire, isContribution⟩
  rw [contribution?.eq_def, shape] at isContribution
  cases wire with
  | delimited content =>
    cases isContribution
    exact List.ne_nil_of_mem (List.mem_filterMap.mpr ⟨_, there, rfl⟩)
  | varint word => cases isContribution
  | fixed64 word => cases isContribution
  | fixed32 word => cases isContribution

/-- A member of a oneof shows something exactly if it is given something. -/
theorem isSome_iff_of_fieldValue (wellFormed : message.WellFormed pool)
    (member : field ∈ message.fields) (inOneof : field.oneof.isSome = true)
    {contributions : List Contribution}
    (sources : Sourced pool decoder entryDecoder message field contributions)
    {shown : Option Json.Value}
    (value : fieldValue pool options decoder field contributions = .ok shown) :
    shown.isSome = true ↔ contributions ≠ [] := by
  have presence := hasPresence_of_oneof wellFormed member inOneof
  constructor
  · rintro isSome rfl
    rw [fieldValue_nil_of_presence presence] at value
    cases value
    cases isSome
  · intro given
    rcases wellFormed.oneofsSingle field member inOneof with ⟨type, explicit, shape⟩
    cases notMessage : type.isMessage with
    | true =>
      cases type with
      | message id =>
        rw [fieldValue_of_contents shape (contentsOf_ne_nil shape sources given)] at value
        rcases Outcome.map_eq_ok_iff.mp value with ⟨_, _, rfl⟩
        rfl
      | scalar scalar => cases notMessage
      | enumeration id => cases notMessage
    | false =>
      rcases List.exists_mem_of_ne_nil _ given with ⟨contribution, there⟩
      rcases sources contribution there with ⟨wire, isContribution⟩
      rw [contribution?_of_notMessage shape notMessage] at isContribution
      rcases Option.map_eq_some_iff.mp isContribution with ⟨run, _, mapped⟩
      rcases Outcome.map_eq_ok_iff.mp mapped with ⟨read, _, rfl⟩
      have held : read ∈ valuesOf contributions := List.mem_filterMap.mpr ⟨_, there, rfl⟩
      rw [fieldValue_of_notMessage shape notMessage,
        List.getLast?_eq_some_getLast (List.ne_nil_of_mem held), presence] at value
      cases value
      rfl

/-- Under a key of its own a document shows a single message as all the contents that count for it
are decoded. -/
theorem exists_of_assemble_message (indexed : message.Indexed) (member : field ∈ message.fields)
    {id : MessageId} {explicit : Bool} (shape : field.shape = .singular (.message id) explicit)
    {next : Message} (found : pool.message? id = some next) (own : KeyIsOwn options message field)
    (read : readPayload message.fullName (occurrence? pool decoder entryDecoder message) payload =
      .ok occurrences) (given : contributionsTo field occurrences ≠ []) {members : Json.Members}
    (assembled : assemble pool options decoder occurrences [] message.fields = .ok members) :
    ∃ value, members.lookup (options.key field) = some value ∧
      decoder next (currentContents message field payload).flatten = .ok value := by
  have value := fieldValue_of_assemble indexed.nodup member
    (fun _ there isKey => own.eq_of_key indexed member there isKey) rfl assembled
  have contents := contentsOf_ne_nil shape (sourced_contributionsTo indexed read member) given
  rw [fieldValue_of_contents shape contents,
    contentsOf_contributionsTo indexed member shape read] at value
  rcases Outcome.map_eq_ok_iff.mp value with ⟨inside, decoded, isShown⟩
  have followed := eq_ok_of_inField decoded
  rw [Decoder.follow, found] at followed
  exact ⟨inside, isShown.symm, followed⟩

/-! ## Keys of a document -/

/-- A list without repetition keeps one element, or none, if that is all that is chosen. -/
theorem filter_eq_toList {α : Type} [DecidableEq α] {p : α → Bool} {list : List α}
    (distinct : list.Nodup) {chosen : Option α} (inside : ∀ element ∈ chosen, element ∈ list)
    (kept : ∀ element ∈ list, p element = true ↔ chosen = some element) :
    list.filter p = chosen.toList := by
  cases chosen with
  | none =>
    exact List.filter_eq_nil_iff.mpr fun element there isKept =>
      nomatch (kept element there).mp isKept
  | some only =>
    have isOnly : ∀ element ∈ list, p element = decide (element = only) := by
      intro element there
      rw [Bool.eq_iff_iff, decide_eq_true_iff, kept element there, Option.some_inj]
      exact eq_comm
    rw [List.filter_congr isOnly, List.filter_eq,
      List.count_eq_one_of_mem distinct (inside only rfl)]
    rfl

theorem keys_membersUnder (key : Field → String) (shown : Field → Option Json.Value)
    (fields : List Field) :
    (membersUnder key shown fields).map (·.1) =
      (fields.filter fun field => (shown field).isSome).map key := by
  induction fields with
  | nil => rfl
  | cons field rest inductionHypothesis =>
    rw [membersUnder] at inductionHypothesis ⊢
    rw [List.filterMap_cons, List.filter_cons]
    cases shown field with
    | none => exact inductionHypothesis
    | some value => exact congrArg (key field :: ·) inductionHypothesis

/-- The keys of the members of a oneof among those of a document, if of the members only one is
shown, or none. -/
theorem filter_keys_membersUnder (indexed : message.Indexed) {index : Nat} {oneof : Oneof}
    (listed : message.oneofs[index]? = some oneof) {shown : Field → Option Json.Value}
    {last : Option Field}
    (isMember : ∀ field ∈ last, field ∈ message.fields ∧ field.oneof = some index)
    (decides : ∀ field ∈ message.fields, field.oneof = some index →
      ((shown field).isSome = true ↔ last = some field)) :
    ((membersUnder (·.name) shown message.fields).map (·.1)).filter
        (fun key => key ∈ (message.membersOf oneof).map (·.name)) =
      (last.map (·.name)).toList := by
  have named : ∀ field ∈ message.fields,
      field.name ∈ (message.membersOf oneof).map (·.name) ↔ field.oneof = some index := by
    intro field member
    rw [List.mem_map]
    constructor
    · rintro ⟨other, isOther, same⟩
      rcases (indexed.mem_membersOf listed other).mp isOther with ⟨there, inOneof⟩
      exact List.inj_on_of_nodup_map indexed.namesDistinct there member same ▸ inOneof
    · intro inOneof
      exact ⟨field, (indexed.mem_membersOf listed field).mpr ⟨member, inOneof⟩, rfl⟩
  rw [keys_membersUnder, List.filter_map, List.filter_filter, Option.toList_map]
  apply congrArg
  apply filter_eq_toList indexed.nodup fun field isLast => (isMember field isLast).1
  intro field member
  rw [Bool.and_eq_true, Function.comp_apply, decide_eq_true_iff, named field member]
  constructor
  · rintro ⟨inOneof, isShown⟩
    exact (decides field member inOneof).mp isShown
  · intro isLast
    have inOneof := (isMember field isLast).2
    exact ⟨inOneof, (decides field member inOneof).mpr isLast⟩

end Messages

end Payload

open Schema Payload

/-- Whatever was registered, a document shows a member of a oneof exactly if a record of some member
occurs, and then it is the one to which the last of them belongs.  If that is a message, its value
is decoded from the contents since the last record of another member. -/
theorem decode_oneof (attempts : List (String × String)) {name : String} {message : Message}
    (found : (Pool.registerAll attempts).findMessage? name = some message) (emitDefaults : Bool)
    {payload : Bytes} {document : Json.Value}
    (accepted : decode (.registerAll attempts) ⟨emitDefaults, false⟩ name payload = .ok document)
    {oneof : Oneof} (listed : oneof ∈ message.oneofs) :
    ∃ members, document = .object members ∧
      (members.map (·.1)).filter (fun key => key ∈ (message.membersOf oneof).map (·.name)) =
        ((message.lastMember? oneof payload).map (·.name)).toList ∧
      ∀ field id, message.lastMember? oneof payload = some field → field.type = .message id →
        ∃ next value, (Pool.registerAll attempts).message? id = some next ∧
          members.lookup field.name = some value ∧
          decode (.registerAll attempts) ⟨emitDefaults, false⟩ next.fullName
            (currentContents message field payload).flatten = .ok value := by
  have wellFormed := Pool.wellFormed_registerAll attempts
  rcases wellFormed.exists_of_findMessage? found with ⟨id, there, _⟩
  have facts := wellFormed.messages message (List.mem_of_getElem? there)
  have indexed := facts.indexed
  rcases List.mem_iff_getElem?.mp listed with ⟨index, place⟩
  rw [decode_of_findMessage? found] at accepted
  rcases decodeLevel_eq_ok_iff.mp accepted with ⟨occurrences, read, members, assembled, same⟩
  have distinct : (message.fields.map (Options.mk emitDefaults false).key).Nodup :=
    indexed.namesDistinct
  rcases exists_membersUnder_of_assemble distinct assembled with ⟨shown, values, isMembers⟩
  have isLast {field : Field} (member : field ∈ message.fields)
      (inOneof : field.oneof = some index) :=
    contributionsTo_ne_nil_iff_lastMember? indexed place member inOneof read
  refine ⟨members, same.symm, ?_, fun field inner last isMessage => ?_⟩
  · rw [isMembers]
    apply filter_keys_membersUnder indexed place fun field last => indexed.of_lastMember? place last
    intro field member inOneof
    rw [isSome_iff_of_fieldValue facts member (Option.isSome_iff_exists.mpr ⟨index, inOneof⟩)
      (sourced_contributionsTo indexed read member) (values field member), isLast member inOneof]
  · rcases indexed.of_lastMember? place last with ⟨member, inOneof⟩
    rcases facts.oneofsSingle field member (Option.isSome_iff_exists.mpr ⟨index, inOneof⟩) with
      ⟨type, explicit, shape⟩
    rw [Field.type, shape] at isMessage
    cases isMessage
    have notMap : field.isMap = false := by rw [Field.isMap, shape]
    have known := facts.nameable field member notMap
    rw [Field.type, shape] at known
    rcases known with ⟨next, innerThere, notEntry⟩
    rcases exists_of_assemble_message indexed member shape innerThere (.of_names rfl message field)
      read ((isLast member inOneof).mpr last) assembled with ⟨inside, isShown, decoded⟩
    -- Nested one level less deep, the same bytes are accepted with the same document.
    rcases within_of_le _ _ (Nat.sub_le nestingLimit 1) next _ inside decoded with
      ⟨_, decodedToo, rfl⟩
    have named := (Pool.orderly_registerAll attempts).findMessage? wellFormed innerThere notEntry
    refine ⟨next, inside, innerThere, isShown, ?_⟩
    simp only [decode, named]
    exact decodedToo

/-- A schema with a message and a number in a oneof. -/
def parcelAttempts : List (String × String) :=
  [("parcel.proto", "message Item\x7boptional int32 size=1;\x7d"
    ++ "message Parcel\x7boneof inside\x7bItem item=1;int32 count=2;\x7doptional bool sealed=3;\x7d")]

/-- Two contents of the message with a number in front of the second and one that is no number
behind it, and a content that is cut in the middle. -/
def parcelPayload : Bytes := [10, 2, 8, 1, 16, 5, 10, 1, 8, 21, 0, 0, 0, 0, 10, 1, 7]

/-- The message goes on behind the record that no member reads. -/
theorem decode_oneof_parcel :
    ∃ message oneof document members next value,
      (Pool.registerAll parcelAttempts).findMessage? "Parcel" = some message ∧
      oneof ∈ message.oneofs ∧
      decode (.registerAll parcelAttempts) ⟨true, false⟩ "Parcel" parcelPayload = .ok document ∧
      document.text = "\x7b\"item\":\x7b\"size\":7\x7d\x7d" ∧ document = .object members ∧
      (members.map (·.1)).filter (fun key => key ∈ (message.membersOf oneof).map (·.name)) =
        ["item"] ∧
      members.lookup "item" = some value ∧ (Pool.registerAll parcelAttempts).message? ⟨0⟩ = some next ∧
      decode (.registerAll parcelAttempts) ⟨true, false⟩ next.fullName [8, 7] = .ok value := by
  have isFound : ((Pool.registerAll parcelAttempts).findMessage? "Parcel").map (fun message =>
      message.oneofs.map fun oneof => (message.lastMember? oneof parcelPayload).map fun field =>
        (field.name, field.type, (currentContents message field parcelPayload).flatten)) =
        some [some ("item", .message ⟨0⟩, [8, 7])] := by
    rw [parcelAttempts, ← String.ofList_append, Pool.registerAll_ofList]
    decide +kernel
  have isShown : (decode (.registerAll parcelAttempts) ⟨true, false⟩ "Parcel" parcelPayload).toOption.map
      (·.text) = some "\x7b\"item\":\x7b\"size\":7\x7d\x7d" := by
    rw [parcelAttempts, ← String.ofList_append, Pool.registerAll_ofList]
    decide +kernel
  rcases Option.map_eq_some_iff.mp isFound with ⟨message, found, facts⟩
  rcases Option.map_eq_some_iff.mp isShown with ⟨document, isDocument, isText⟩
  rcases List.map_eq_singleton_iff.mp facts with ⟨oneof, isOneof, lastFacts⟩
  rcases Option.map_eq_some_iff.mp lastFacts with ⟨field, last, fieldFacts⟩
  rcases Prod.mk.inj fieldFacts with ⟨fieldName, typeAndContents⟩
  rcases Prod.mk.inj typeAndContents with ⟨isMessage, contents⟩
  have listed : oneof ∈ message.oneofs := isOneof ▸ List.mem_singleton_self oneof
  have accepted := Outcome.toOption_eq_some_iff.mp isDocument
  rcases decode_oneof parcelAttempts found true accepted listed with ⟨members, same, keys, values⟩
  rcases values field ⟨0⟩ last isMessage with ⟨next, value, there, isValue, decoded⟩
  rw [last, Option.map_some, fieldName] at keys
  rw [fieldName] at isValue
  rw [contents] at decoded
  exact ⟨message, oneof, document, members, next, value, found, listed, accepted, isText, same, keys,
    isValue, there, decoded⟩

/-- A member that is set is shown, even if its value is the default. -/
example : (decode (.registerAll parcelAttempts) .plain "Parcel" [10, 2, 8, 1, 16, 0]).toOption.map
    (·.text) = some "\x7b\"count\":0\x7d" := by
  rw [parcelAttempts, ← String.ofList_append, Pool.registerAll_ofList]
  decide +kernel

end SchemaRecords
