import SchemaRecords.Proofs.Payload.OwnRecords
import SchemaRecords.Proofs.Schema.GivenCharacters
import SchemaRecords.Proofs.Wire.ConsumedBytes

/-!
# Payloads that are cut off

A payload of which the end is missing is refused, unless it is cut in front of one of its records.
A reader cannot know of records that are missing as a whole, but whatever else the cut falls into,
a tag, a number, the length or the content of a block, or a group at any depth, the reader finds
that the input has come to its end too early.

The records in front of the cut are read as before, and so none of them can be refused first.
-/

namespace SchemaRecords

namespace Wire.Record

/-- The positions at which the records of a payload begin, up to the first that cannot be read. -/
def starts (bytes : Bytes) : List Nat :=
  match bytes with
  | [] => []
  | first :: others =>
    match step : read (first :: others) with
    | .error _ => [0]
    | .ok (_, rest) =>
      have := length_of_read step
      0 :: (starts rest).map (· + ((first :: others).length - rest.length))
termination_by bytes.length
decreasing_by assumption

theorem starts_of_read {bytes rest : Bytes} {record : Record}
    (front : read bytes = .ok (record, rest)) :
    starts bytes = 0 :: (starts rest).map (· + (bytes.length - rest.length)) := by
  rw [starts.eq_def]
  split
  · cases front
  · split
    · rename_i refused
      cases front.symm.trans refused
    · rename_i isRead
      cases front.symm.trans isRead
      rfl

/-- A front part that ends inside of a record has the records in front of it, and of this one too
little.  By induction on the payload: the first record is read from the part as well, and then the
part goes on as the payload does, or the part is at its end before. -/
theorem exists_split_prefix {payload part : Bytes} (complete : (split payload).2 = none)
    (isPart : part <+: payload) (shorter : part.length < payload.length)
    (between : part.length ∉ starts payload) :
    ∃ whole record others fault, (split payload).1 = whole ++ record :: others ∧
      split part = (whole, some fault) ∧ fault.IsCut := by
  induction size : payload.length using Nat.strongRecOn generalizing payload part with
  | ind size inductionHypothesis =>
  cases isRead : read payload with
  | error fault =>
    have nonempty : payload ≠ [] :=
      List.ne_nil_of_length_pos (Nat.lt_of_le_of_lt (Nat.zero_le _) shorter)
    rw [split_of_refused nonempty isRead] at complete
    cases complete
  | ok pair =>
    rcases pair with ⟨record, rest⟩
    have less := length_of_read isRead
    rcases readsFront payload record rest isRead with ⟨front, rfl, consumes⟩
    rw [starts_of_read isRead, List.mem_cons, not_or] at between
    rw [split_of_read isRead] at complete ⊢
    rcases consumes.cut part isPart with ⟨fault, refused, isCut⟩ | ⟨left, rfl, isHere⟩
    · have nonempty : part ≠ [] := fun empty => between.1 (empty ▸ rfl)
      exact ⟨[], record, (split rest).1, fault, rfl, split_of_refused nonempty refused, isCut⟩
    · simp only [List.length_append] at less shorter size between
      have later : left.length ∉ starts rest := fun start =>
        between.2 (List.mem_map.mpr ⟨left.length, start, by omega⟩)
      rcases inductionHypothesis rest.length (by omega) complete
          ((List.prefix_append_right_inj front).mp isPart) (by omega) later rfl with
        ⟨whole, cutRecord, others, fault, records, isSplit, isCut⟩
      refine ⟨record :: whole, cutRecord, others, fault, by rw [records, List.cons_append], ?_,
        isCut⟩
      rw [split_of_read isHere, isSplit]

end Wire.Record

namespace Payload

/-- A payload that is interpreted to its end is not interpreted if it is cut inside of a record. -/
theorem readPayload_take {α : Type} {interpret : Wire.Record → Option (Decoded α)}
    {message : String} {payload : Bytes} {values : List α}
    (done : readPayload message interpret payload = .ok values) {count : Nat}
    (inside : count < payload.length) (between : count ∉ Wire.Record.starts payload) :
    ∃ fault, readPayload message interpret (payload.take count) = .error (.wire message fault) ∧
      fault.IsCut := by
  rcases readPayload_eq_ok_iff_understood.mp done with ⟨complete, accepted, -⟩
  have length : (payload.take count).length = count := List.length_take_of_le (Nat.le_of_lt inside)
  rcases Wire.Record.exists_split_prefix complete (List.take_prefix count payload)
      (length.symm ▸ inside) (length.symm ▸ between) with
    ⟨whole, record, others, fault, records, isSplit, isCut⟩
  rw [records] at accepted
  have isFront := readRecords_eq_ok_iff.mpr ⟨(List.forall_mem_append.mp accepted).1, rfl⟩
  refine ⟨fault, ?_, isCut⟩
  simp only [readPayload, isSplit, isFront]

end Payload

open Schema Payload

/-- A payload that is accepted is refused if it is cut off anywhere but in front of a record: the
input has come to its end too early. -/
theorem decode_take {pool : Pool} {options : Options} {name : String} {payload : Bytes}
    {document : Json.Value} (accepted : decode pool options name payload = .ok document)
    {count : Nat} (inside : count < payload.length)
    (between : count ∉ Wire.Record.starts payload) :
    ∃ message fault, pool.findMessage? name = some message ∧
      decode pool options name (payload.take count) = .error (.wire message.fullName fault) ∧
      fault.IsCut := by
  cases found : pool.findMessage? name with
  | none =>
    simp only [decode, found] at accepted
    cases accepted
  | some message =>
    rw [decode_of_findMessage? found] at accepted
    rcases decodeLevel_eq_ok_iff.mp accepted with ⟨occurrences, isRead, _⟩
    rcases readPayload_take isRead inside between with ⟨fault, refused, isCut⟩
    refine ⟨message, fault, rfl, ?_, isCut⟩
    rw [decode_of_findMessage? found, decodeLevel, refused]
    rfl

/-- A schema with fields that are laid out in different ways. -/
def ledgerAttempts : List (String × String) :=
  [("ledger.proto",
    "message Ledger\x7boptional int32 total=1;repeated int32 parts=2;map<string,int32> names=3;\x7d")]

/-- A number, a packed block, a map entry, and an unknown group with a group in it. -/
def ledgerPayload : Bytes :=
  [8, 150, 1, 18, 2, 1, 2, 26, 5, 10, 1, 97, 16, 1, 35, 43, 48, 5, 44, 36]

theorem decode_take_ledger :
    Wire.Record.starts ledgerPayload = [0, 3, 7, 14] ∧
      ∃ document, decode (.registerAll ledgerAttempts) .plain "Ledger" ledgerPayload = .ok document ∧
        ∀ count < 20, count ∉ [0, 3, 7, 14] →
          ∃ message fault, (Pool.registerAll ledgerAttempts).findMessage? "Ledger" = some message ∧
            decode (.registerAll ledgerAttempts) .plain "Ledger" (ledgerPayload.take count) =
              .error (.wire message.fullName fault) ∧ fault.IsCut := by
  have isStart : Wire.Record.starts ledgerPayload = [0, 3, 7, 14] := by
    decide +kernel
  have isShown :
      (decode (.registerAll ledgerAttempts) .plain "Ledger" ledgerPayload).toOption.isSome = true := by
    rw [ledgerAttempts, Pool.registerAll_ofList]
    decide +kernel
  rcases Option.isSome_iff_exists.mp isShown with ⟨document, isDocument⟩
  have accepted := Outcome.toOption_eq_some_iff.mp isDocument
  exact ⟨isStart, document, accepted, fun count inside between =>
    decode_take accepted inside (isStart ▸ between)⟩

end SchemaRecords
