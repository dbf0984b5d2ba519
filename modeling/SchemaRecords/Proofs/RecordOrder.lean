import SchemaRecords.Proofs.Payload.ConcernedRecords
import SchemaRecords.Proofs.Schema.GivenCharacters
import SchemaRecords.Proofs.Wire.ConsumedBytes

/-!
# The order of records

The records of a payload may come in another order, as long as those of each field and those of the
members of each oneof keep theirs.  Two records that stand next to each other may change places if
their numbers differ and are not those of two members of one oneof.

The document is then the same, members and their order included, since the fields appear in it as
they are declared.  A payload that is refused stays refused, though another record may be the first
that is found to be wrong.
-/

namespace SchemaRecords

namespace Schema

/-- Whether a number is that of a member of a oneof. -/
def Message.hasMember (message : Message) (oneof : Oneof) (number : Nat) : Bool :=
  (message.membersOf oneof).any fun member => member.number = number

theorem Message.Indexed.hasMember_iff {message : Message} (indexed : message.Indexed) {index : Nat}
    {oneof : Oneof} (listed : message.oneofs[index]? = some oneof) {field : Field}
    (member : field ∈ message.fields) :
    message.hasMember oneof field.number = true ↔ field.oneof = some index := by
  constructor
  · intro some
    rcases List.any_eq_true.mp some with ⟨other, isMember, same⟩
    rcases (indexed.mem_membersOf listed other).mp isMember with ⟨there, inOneof⟩
    exact indexed.eq_of_number there member (of_decide_eq_true same) ▸ inOneof
  · intro inOneof
    exact List.any_eq_true.mpr
      ⟨field, (indexed.mem_membersOf listed field).mpr ⟨member, inOneof⟩, decide_eq_true rfl⟩

/-- Two numbers that differ and are not those of two members of one oneof. -/
def Message.Apart (message : Message) (first second : Nat) : Prop :=
  first ≠ second ∧ ∀ oneof ∈ message.oneofs,
    ¬ (message.hasMember oneof first = true ∧ message.hasMember oneof second = true)

instance (message : Message) (first second : Nat) : Decidable (message.Apart first second) :=
  inferInstanceAs (Decidable (first ≠ second ∧ ∀ oneof ∈ message.oneofs,
    ¬ (message.hasMember oneof first = true ∧ message.hasMember oneof second = true)))

/-- The same records, in an order in which those of each number, and those of the members of each
oneof, come as before. -/
structure Message.KeepsOrder (message : Message) (records others : List Wire.Record) : Prop where
  numbers : ∀ number, records.filter (fun record => record.number = number) =
    others.filter fun record => record.number = number
  oneofs : ∀ oneof ∈ message.oneofs,
    records.filter (fun record => message.hasMember oneof record.number) =
      others.filter fun record => message.hasMember oneof record.number

/-- Only the numbers that occur have to be looked at. -/
theorem Message.keepsOrder_iff {message : Message} {records others : List Wire.Record} :
    message.KeepsOrder records others ↔
      (∀ occurring ∈ records ++ others,
        records.filter (fun record => record.number = occurring.number) =
          others.filter fun record => record.number = occurring.number) ∧
      ∀ oneof ∈ message.oneofs,
        records.filter (fun record => message.hasMember oneof record.number) =
          others.filter fun record => message.hasMember oneof record.number := by
  constructor
  · intro keeps
    exact ⟨fun occurring _ => keeps.numbers occurring.number, keeps.oneofs⟩
  · rintro ⟨occurring, oneofs⟩
    refine ⟨fun number => ?_, oneofs⟩
    by_cases occurs : ∃ record ∈ records ++ others, record.number = number
    · rcases occurs with ⟨record, there, rfl⟩
      exact occurring record there
    · have absent : ∀ record ∈ records ++ others, ¬ decide (record.number = number) = true :=
        fun record there isNumber => occurs ⟨record, there, of_decide_eq_true isNumber⟩
      rcases List.forall_mem_append.mp absent with ⟨first, second⟩
      rw [List.filter_eq_nil_iff.mpr first, List.filter_eq_nil_iff.mpr second]

instance (message : Message) (records others : List Wire.Record) :
    Decidable (message.KeepsOrder records others) :=
  decidable_of_iff _ Message.keepsOrder_iff.symm

end Schema

namespace Payload

open SchemaRecords.Schema

variable {pool : Pool} {options : Options} {decoder entryDecoder : Decoder} {message : Message}
  {records others : List Wire.Record}

theorem filter_swap {α : Type} {p : α → Bool} {first second : α}
    (apart : ¬ (p first = true ∧ p second = true)) (front behind : List α) :
    (front ++ first :: second :: behind).filter p =
      (front ++ second :: first :: behind).filter p := by
  rw [List.filter_append, List.filter_append]
  apply congrArg
  by_cases isFirst : p first = true
  · have notSecond : ¬ p second = true := fun isSecond => apart ⟨isFirst, isSecond⟩
    rw [List.filter_cons_of_pos isFirst, List.filter_cons_of_neg notSecond,
      List.filter_cons_of_neg notSecond, List.filter_cons_of_pos isFirst]
  · rw [List.filter_cons_of_neg isFirst, List.filter_cons, List.filter_cons,
      List.filter_cons_of_neg isFirst]

/-- Neighbours whose numbers are apart may change places. -/
theorem keepsOrder_swap {first second : Wire.Record}
    (apart : message.Apart first.number second.number) (front behind : List Wire.Record) :
    message.KeepsOrder (front ++ first :: second :: behind)
      (front ++ second :: first :: behind) where
  numbers := by
    intro number
    apply filter_swap
    rintro ⟨isFirst, isSecond⟩
    exact apart.1 ((of_decide_eq_true isFirst).trans (of_decide_eq_true isSecond).symm)
  oneofs := by
    intro oneof member
    exact filter_swap (p := fun record => message.hasMember oneof record.number)
      (apart.2 oneof member) front behind

theorem mem_iff_of_keepsOrder (keeps : message.KeepsOrder records others) (record : Wire.Record) :
    record ∈ records ↔ record ∈ others := by
  have own := congrArg (record ∈ ·) (keeps.numbers record.number)
  simpa using own

theorem allAccepted_iff_of_keepsOrder (keeps : message.KeepsOrder records others) :
    AllAccepted (occurrence? pool decoder entryDecoder message) records ↔
      AllAccepted (occurrence? pool decoder entryDecoder message) others :=
  forall_congr' fun record => imp_congr_left (mem_iff_of_keepsOrder keeps record)

/-- A field is given the same by the same records, if their order is kept.  Outside of oneofs its
own records are enough for that. -/
theorem contributionsTo_of_keepsOrder (indexed : message.Indexed)
    (keeps : message.KeepsOrder records others) {field : Field} (member : field ∈ message.fields) :
    contributionsTo field (understood (occurrence? pool decoder entryDecoder message) records) =
      contributionsTo field
        (understood (occurrence? pool decoder entryDecoder message) others) := by
  -- The numbers that concern the field, among which the order is kept.
  have concern (p : Nat → Bool) (own : p field.number = true)
      (siblings : ∀ other ∈ message.fields, field.oneof.isSome = true →
        other.oneof = field.oneof → p other.number = true)
      (same : records.filter (fun record => p record.number) =
        others.filter fun record => p record.number) :
      contributionsTo field
          (understood (occurrence? pool decoder entryDecoder message) records) =
        contributionsTo field
          (understood (occurrence? pool decoder entryDecoder message) others) := by
    rw [← contributionsTo_understood_filter indexed own siblings records, same,
      contributionsTo_understood_filter indexed own siblings]
  cases inOneof : field.oneof with
  | none =>
    refine concern (fun number => number = field.number) (decide_eq_true rfl) ?_
      (keeps.numbers field.number)
    intro other _ impossible
    rw [inOneof] at impossible
    cases impossible
  | some index =>
    have listed := List.getElem?_eq_getElem (indexed.oneofsInRange field member index inOneof)
    exact concern (message.hasMember _) ((indexed.hasMember_iff listed member).mpr inOneof)
      (fun other there _ same => (indexed.hasMember_iff listed there).mpr (same.trans inOneof))
      (keeps.oneofs _ (List.mem_of_getElem? listed))

/-- The document of a payload is that of its records in another order that keeps what matters. -/
theorem toOption_decodeLevel_of_keepsOrder (indexed : message.Indexed) {payload other : Bytes}
    (ends : (Wire.Record.split payload).2 = (Wire.Record.split other).2)
    (keeps : message.KeepsOrder (Wire.Record.split payload).1 (Wire.Record.split other).1) :
    (decodeLevel pool options decoder entryDecoder message payload).toOption =
      (decodeLevel pool options decoder entryDecoder message other).toOption := by
  apply toOption_decodeLevel_congr ends (allAccepted_iff_of_keepsOrder keeps)
  intro _ field member
  rw [contributionsTo_of_keepsOrder indexed keeps member]

end Payload

open Schema Payload

/-- Whatever was registered, the records of a payload may be put in any order that keeps those of
each field and those of each oneof in theirs: the document stays the same, or there is none.  In
particular, neighbours that belong to no common field or oneof may change places, whatever comes
behind them. -/
theorem decode_reordered (attempts : List (String × String)) {name : String} {message : Message}
    (found : (Pool.registerAll attempts).findMessage? name = some message) (options : Options) :
    (∀ before one two behind first second, (Wire.Record.split before).2 = none →
      Wire.Record.read one = .ok (first, []) → Wire.Record.read two = .ok (second, []) →
      message.Apart first.number second.number →
      (decode (.registerAll attempts) options name (before ++ one ++ two ++ behind)).toOption =
        (decode (.registerAll attempts) options name (before ++ two ++ one ++ behind)).toOption) ∧
    ∀ payload other, (Wire.Record.split payload).2 = none → (Wire.Record.split other).2 = none →
      message.KeepsOrder (Wire.Record.split payload).1 (Wire.Record.split other).1 →
      (decode (.registerAll attempts) options name payload).toOption =
        (decode (.registerAll attempts) options name other).toOption := by
  have wellFormed := Pool.wellFormed_registerAll attempts
  rcases wellFormed.exists_of_findMessage? found with ⟨id, there, _⟩
  have indexed := (wellFormed.messages message (List.mem_of_getElem? there)).indexed
  have general (payload other : Bytes)
      (ends : (Wire.Record.split payload).2 = (Wire.Record.split other).2)
      (keeps : message.KeepsOrder (Wire.Record.split payload).1 (Wire.Record.split other).1) :
      (decode (.registerAll attempts) options name payload).toOption =
        (decode (.registerAll attempts) options name other).toOption := by
    rw [decode_of_findMessage? found, decode_of_findMessage? found]
    exact toOption_decodeLevel_of_keepsOrder indexed ends keeps
  constructor
  · intro before one two behind first second complete isFirst isSecond apart
    have split {block next : Bytes} {record other : Wire.Record}
        (isRecord : Wire.Record.read block = .ok (record, []))
        (isOther : Wire.Record.read next = .ok (other, [])) :
        Wire.Record.split (before ++ block ++ next ++ behind) =
          ((Wire.Record.split before).1 ++ record :: other :: (Wire.Record.split behind).1,
            (Wire.Record.split behind).2) := by
      rw [List.append_assoc, List.append_assoc, Wire.Record.split_append complete,
        Wire.Record.split_record isRecord, Wire.Record.split_record isOther]
    apply general
    · rw [split isFirst isSecond, split isSecond isFirst]
    · rw [split isFirst isSecond, split isSecond isFirst]
      exact keepsOrder_swap apart _ _
  · intro payload other complete otherComplete keeps
    exact general payload other (complete.trans otherComplete.symm) keeps

/-- A schema with a oneof, a repeated field and a message. -/
def trayAttempts : List (String × String) :=
  [("tray.proto", "message Tray\x7boneof drink\x7bint32 tea=1;string milk=2;\x7d"
    ++ "repeated int32 plates=3;optional Tray under=4;\x7d")]

/-- Two members of the oneof, with elements and a message between them. -/
def trayPayload : Bytes := [8, 5, 24, 1, 34, 2, 24, 7, 18, 1, 109, 24, 2]

/-- The same records, the elements and the members still in their order. -/
def trayReordered : Bytes := [24, 1, 34, 2, 24, 7, 24, 2, 8, 5, 18, 1, 109]

theorem decode_reordered_tray :
    ∃ message, (Pool.registerAll trayAttempts).findMessage? "Tray" = some message ∧
      message.KeepsOrder (Wire.Record.split trayPayload).1 (Wire.Record.split trayReordered).1 ∧
      message.Apart 3 4 ∧ ¬ message.Apart 1 2 ∧
      (decode (.registerAll trayAttempts) .plain "Tray" trayPayload).toOption.map (·.text) =
        some "\x7b\"milk\":\"m\",\"plates\":[1,2],\"under\":\x7b\"plates\":[7]\x7d\x7d" ∧
      (decode (.registerAll trayAttempts) .plain "Tray" trayPayload).toOption =
        (decode (.registerAll trayAttempts) .plain "Tray" trayReordered).toOption ∧
      ∀ behind,
        (decode (.registerAll trayAttempts) .plain "Tray"
            ([8, 5] ++ [24, 1] ++ [34, 2, 24, 7] ++ behind)).toOption =
          (decode (.registerAll trayAttempts) .plain "Tray"
            ([8, 5] ++ [34, 2, 24, 7] ++ [24, 1] ++ behind)).toOption := by
  have isFound : ((Pool.registerAll trayAttempts).findMessage? "Tray").map (fun message =>
      decide (message.KeepsOrder (Wire.Record.split trayPayload).1
          (Wire.Record.split trayReordered).1 ∧ message.Apart 3 4 ∧ ¬ message.Apart 1 2)) =
        some true := by
    rw [trayAttempts, ← String.ofList_append, Pool.registerAll_ofList]
    decide +kernel
  have isShown : (decode (.registerAll trayAttempts) .plain "Tray" trayPayload).toOption.map
      (·.text) =
        some "\x7b\"milk\":\"m\",\"plates\":[1,2],\"under\":\x7b\"plates\":[7]\x7d\x7d" := by
    rw [trayAttempts, ← String.ofList_append, Pool.registerAll_ofList]
    decide +kernel
  rcases Option.map_eq_some_iff.mp isFound with ⟨message, found, facts⟩
  rcases of_decide_eq_true facts with ⟨keeps, apart, together⟩
  rcases decode_reordered trayAttempts found .plain with ⟨neighbours, reordered⟩
  refine ⟨message, found, keeps, apart, together, isShown, ?_, fun behind => ?_⟩
  · exact reordered trayPayload trayReordered (by decide +kernel) (by decide +kernel) keeps
  · exact neighbours [8, 5] [24, 1] [34, 2, 24, 7] behind ⟨3, some (.varint 1)⟩
      ⟨4, some (.delimited [24, 7])⟩ (by decide +kernel) (by rfl) (by rfl) apart

end SchemaRecords
