import SchemaRecords.Proofs.Payload.OwnedRecords
import SchemaRecords.Proofs.Schema.GivenCharacters
import SchemaRecords.Proofs.Wire.ConsumedBytes

/-!
# Foreign records leave no trace

A record that belongs to no field of a message may stand anywhere between the records of a payload
without making any difference.  That holds of groups, of numbers that the message does not declare,
and of declared numbers whose value is laid out in another way than the field reads.  Such a record
is taken off the payload like any other, but it is no occurrence: so it takes the place of no value,
displaces no member of its oneof, and what is wrong with a later record is reported in the same
words.
-/

namespace SchemaRecords

namespace Payload

open SchemaRecords.Schema

/-- A record that is passed over changes nothing about what is made of the others. -/
theorem readRecords_insert {α : Type} {interpret : Wire.Record → Option (Decoded α)}
    {record : Wire.Record} (skipped : interpret record = none)
    (before behind : List Wire.Record) :
    readRecords interpret (before ++ record :: behind) = readRecords interpret (before ++ behind) := by
  induction before with
  | nil => simp only [List.nil_append, readRecords, skipped]
  | cons first rest inductionHypothesis =>
    simp only [List.cons_append, readRecords, inductionHypothesis]

/-- A payload is interpreted as if a record that is passed over were not there. -/
theorem readPayload_insert {α : Type} {interpret : Wire.Record → Option (Decoded α)}
    {before inserted : Bytes} (complete : (Wire.Record.split before).2 = none)
    {record : Wire.Record} (isRecord : Wire.Record.read inserted = .ok (record, []))
    (skipped : interpret record = none) (message : String) (behind : Bytes) :
    readPayload message interpret (before ++ inserted ++ behind) =
      readPayload message interpret (before ++ behind) := by
  simp only [readPayload, List.append_assoc, Wire.Record.split_append complete,
    Wire.Record.split_record isRecord, readRecords_insert skipped]

/-- A message is decoded as if a record that belongs to none of its fields were not there, however
the messages in it are decoded. -/
theorem decodeLevel_insert (pool : Pool) (options : Options) (decoder entryDecoder : Decoder)
    {message : Message} {before inserted : Bytes}
    (complete : (Wire.Record.split before).2 = none) {record : Wire.Record}
    (isRecord : Wire.Record.read inserted = .ok (record, [])) (foreign : message.Foreign record)
    (behind : Bytes) :
    decodeLevel pool options decoder entryDecoder message (before ++ inserted ++ behind) =
      decodeLevel pool options decoder entryDecoder message (before ++ behind) := by
  have skipped : occurrence? pool decoder entryDecoder message record = none := by
    rw [← Option.not_isSome_iff_eq_none, isSome_occurrence?,
      Message.owner?_eq_none_iff.mpr foreign]
    exact Bool.false_ne_true
  rw [decodeLevel, decodeLevel, readPayload_insert complete isRecord skipped]

end Payload

open Schema Payload

/-- Between whole records, a record that belongs to no field of the message makes no difference to
the document, or to the reason why there is none. -/
theorem decode_insert {pool : Pool} {name : String} {message : Message}
    (found : pool.findMessage? name = some message) (options : Options) {before inserted : Bytes}
    (complete : (Wire.Record.split before).2 = none) {record : Wire.Record}
    (isRecord : Wire.Record.read inserted = .ok (record, [])) (foreign : message.Foreign record)
    (behind : Bytes) :
    decode pool options name (before ++ inserted ++ behind) =
      decode pool options name (before ++ behind) := by
  rw [decode_of_findMessage? found, decode_of_findMessage? found,
    decodeLevel_insert pool options _ _ complete isRecord foreign]

/-- A schema with a oneof, a repeated field and a map. -/
def basketAttempts : List (String × String) :=
  [("basket.proto", "message Basket\x7boneof item\x7bint32 count=1;string label=2;\x7d"
    ++ "repeated int32 sizes=3;map<string,int32> prices=4;\x7d")]

/-- A group with the number of a member of the oneof does not displace the other member. -/
theorem decode_insert_basket :
    ∃ message record, (Pool.registerAll basketAttempts).findMessage? "Basket" = some message ∧
      (Wire.Record.split [8, 5]).2 = none ∧
      Wire.Record.read [19, 27, 8, 1, 28, 20] = .ok (record, []) ∧ message.Foreign record ∧
      ∀ behind, decode (.registerAll basketAttempts) .plain "Basket"
          ([8, 5] ++ [19, 27, 8, 1, 28, 20] ++ behind) =
        decode (.registerAll basketAttempts) .plain "Basket" ([8, 5] ++ behind) := by
  have isFound : ((Pool.registerAll basketAttempts).findMessage? "Basket").isSome = true := by
    rw [basketAttempts, ← String.ofList_append, Pool.registerAll_ofList]
    decide +kernel
  have complete : (Wire.Record.split [8, 5]).2 = none := by
    decide +kernel
  have isRecord : Wire.Record.read [19, 27, 8, 1, 28, 20] = .ok (⟨2, none⟩, []) := by
    have computed : (Wire.Record.read [19, 27, 8, 1, 28, 20]).toOption = some (⟨2, none⟩, []) := by
      decide +kernel
    exact Outcome.toOption_eq_some_iff.mp computed
  rcases Option.isSome_iff_exists.mp isFound with ⟨message, found⟩
  have foreign : message.Foreign ⟨2, none⟩ := by
    intro value field impossible
    cases impossible
  exact ⟨message, ⟨2, none⟩, found, complete, isRecord, foreign,
    decode_insert found .plain complete isRecord foreign⟩

end SchemaRecords
