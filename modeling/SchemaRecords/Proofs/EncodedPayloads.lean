import SchemaRecords.Proofs.Payload.ExactDocuments
import SchemaRecords.Proofs.Payload.MessageLevels
import SchemaRecords.Proofs.Schema.GivenCharacters
import SchemaRecords.Proofs.Schema.LinkedUnits

/-!
# Encoded payloads can be decoded

Whatever the encoder accepts has a payload that can be decoded, with one exception.  Documents may
have as many levels as the reader of their text allows, but the decoder stops at one hundred.  The
payloads that are refused are those of documents with more levels, and they are refused for that.

Payloads of 2^32 bytes and more are left out of this.  The decoder may take a content in them for a
shorter one, and then it reads what is left over as records, whatever that may be.
-/

namespace SchemaRecords
namespace Payload

open SchemaRecords.Schema

theorem exists_of_encodeText {pool : Pool} {name text : String} {payload : Bytes}
    (encoded : encodeText pool name text = .ok payload) :
    ∃ message members, pool.findMessage? name = some message ∧
      Json.Value.read? text = some (.object members) ∧
      encodeMembers pool message members = .ok payload := by
  unfold encodeText at encoded
  split at encoded
  · cases encoded
  · rename_i message found
    split at encoded
    · cases encoded
    · rename_i document read
      cases document with
      | object members =>
        rw [encode_object found] at encoded
        exact ⟨message, members, found, read, encoded⟩
      | _ =>
        simp only [encode, found] at encoded
        cases encoded

end Payload

open Schema Payload

/-- Whatever was registered, the payload of a text can be decoded exactly if its document does not
have too many levels, and is refused for nothing else. -/
theorem decode_encodeText (attempts : List (String × String)) {name text : String}
    {payload : Bytes} (encoded : encodeText (.registerAll attempts) name text = .ok payload)
    (short : payload.length < 2 ^ 32) (options : Options) :
    ∃ message document, (Pool.registerAll attempts).findMessage? name = some message ∧
      Json.Value.read? text = some document ∧
      ((∃ shown, decode (.registerAll attempts) options name payload = .ok shown) ↔
        documentLevels (.registerAll attempts) message document ≤ nestingLimit) ∧
      ∀ refusal, decode (.registerAll attempts) options name payload = .error refusal →
        refusal.IsTooDeep := by
  have wellFormed := Pool.wellFormed_registerAll attempts
  rcases exists_of_encodeText encoded with ⟨message, members, found, read, written⟩
  rcases wellFormed.exists_of_findMessage? found with ⟨id, there, notEntry⟩
  have limited : Limited (.registerAll attempts) nestingLimit
      (decodeWithin (.registerAll attempts) options nestingLimit) :=
    limited_decodeWithin wellFormed nestingLimit
  have bounded := limited id message there notEntry members payload written short
  refine ⟨message, .object members, found, read, ?_⟩
  simp only [decode, found]
  exact ⟨bounded.succeeds, bounded.deep⟩

/-- A schema with messages inside of messages of the same type. -/
def chainAttempts : List (String × String) :=
  [("chain.proto", "message Chain\x7boptional Chain next=1;map<int32,Chain> others=2;\x7d")]

/-- A document in which an entry has the message with the most levels. -/
def chainText : String :=
  "\x7b\"others\":\x7b\"1\":null,\"2\":\x7b\"next\":\x7b\x7d\x7d\x7d\x7d"

theorem decode_encodeText_entry :
    encodeText (.registerAll chainAttempts) "Chain" chainText =
        .ok [18, 4, 8, 1, 18, 0, 18, 6, 8, 2, 18, 2, 10, 0] ∧
      ∃ message document shown,
        (Pool.registerAll chainAttempts).findMessage? "Chain" = some message ∧
        Json.Value.read? chainText = some document ∧
        documentLevels (.registerAll chainAttempts) message document = 4 ∧
        decode (.registerAll chainAttempts) ⟨false, false⟩ "Chain"
          [18, 4, 8, 1, 18, 0, 18, 6, 8, 2, 18, 2, 10, 0] = .ok shown := by
  have isEncoded : (encodeText (.registerAll chainAttempts) "Chain" chainText).toOption =
      some [18, 4, 8, 1, 18, 0, 18, 6, 8, 2, 18, 2, 10, 0] := by
    rw [chainAttempts, Pool.registerAll_ofList]
    decide +kernel
  have levels : ((Pool.registerAll chainAttempts).findMessage? "Chain").bind (fun message =>
      (Json.Value.read? chainText).map (documentLevels (.registerAll chainAttempts) message)) =
      some 4 := by
    rw [chainAttempts, Pool.registerAll_ofList]
    decide +kernel
  have encoded := Outcome.toOption_eq_some_iff.mp isEncoded
  rcases decode_encodeText chainAttempts encoded (by decide) ⟨false, false⟩ with
    ⟨message, document, found, read, succeeds, _⟩
  rw [found, read] at levels
  have four := Option.some.inj levels
  rcases succeeds.mpr (by rw [four]; decide) with ⟨shown, decoded⟩
  exact ⟨encoded, message, document, shown, found, read, four, decoded⟩

/-- Messages inside of each other, to some depth. -/
def chainMembers : Nat → Json.Members
  | 0 => []
  | depth + 1 => [("next", .object (chainMembers depth))]

/-- The payload of such messages. -/
def chainPayload : Nat → Bytes
  | 0 => []
  | depth + 1 => Wire.Record.encode 1 (.delimited (chainPayload depth))

/-- The text of such messages is read as it was written. -/
theorem exact_chainMembers (depth : Nat) : (Json.Value.object (chainMembers depth)).Exact := by
  induction depth with
  | zero => exact .object List.nodup_nil (List.forall_mem_nil _)
  | succ depth inductionHypothesis =>
    exact .object (List.nodup_singleton _) (List.forall_mem_singleton.mpr inductionHypothesis)

theorem depth_chainMembers (depth : Nat) :
    (Json.Value.object (chainMembers depth)).depth = depth + 1 := by
  induction depth with
  | zero => rfl
  | succ depth inductionHypothesis =>
    rw [chainMembers, Json.Value.depth, Json.Value.depthOfMembers, inductionHypothesis]
    rfl

/-- Each message is the one record of the message around it. -/
theorem encodeMembers_chainMembers {pool : Pool} {id : MessageId} {message : Message}
    {field : Field} (there : pool.message? id = some message) (indexed : message.Indexed)
    (found : message.fieldByName? "next" = some field)
    (shape : field.shape = .singular (.message id) true) (number : field.number = 1)
    (depth : Nat) :
    encodeMembers pool message (chainMembers depth) = .ok (chainPayload depth) := by
  induction depth with
  | zero => exact encodeMembers_nil pool message
  | succ depth inductionHypothesis =>
    have presence : field.hasPresence = true := by
      rw [Field.hasPresence, shape]
      rfl
    rw [chainMembers, encodeMembers_singleton indexed found rfl]
    simp only [valueRecords, fieldRecords, shape, convert_object there, inductionHypothesis,
      singleRecord, presence, number]
    rfl

/-- One hundred messages inside of a message are encoded, but not decoded. -/
theorem decode_encodeText_chain :
    encodeText (.registerAll chainAttempts) "Chain"
        (Json.Value.object (chainMembers 100)).text = .ok (chainPayload 100) ∧
      (chainPayload 100).length < 2 ^ 32 ∧
      ∃ refusal, decode (.registerAll chainAttempts) ⟨false, false⟩ "Chain" (chainPayload 100) =
        .error refusal := by
  have isNext : ((Pool.registerAll chainAttempts).message? ⟨0⟩).bind
      (fun message => (message.fieldByName? "next").map fun field =>
        (field.shape, field.number)) = some (.singular (.message ⟨0⟩) true, 1) := by
    rw [chainAttempts, Pool.registerAll_ofList]
    decide +kernel
  have isFound : (Pool.registerAll chainAttempts).findMessage? "Chain" =
      (Pool.registerAll chainAttempts).message? ⟨0⟩ := by
    rw [chainAttempts, Pool.registerAll_ofList]
    decide +kernel
  have isRefused : (decode (.registerAll chainAttempts) ⟨false, false⟩ "Chain"
      (chainPayload 100)).toOption.isNone = true := by
    rw [chainAttempts, Pool.registerAll_ofList]
    decide +kernel
  rcases Option.bind_eq_some_iff.mp isNext with ⟨message, there, next⟩
  rcases Option.map_eq_some_iff.mp next with ⟨field, found, same⟩
  have indexed := ((Pool.wellFormed_registerAll chainAttempts).messages message
    (List.mem_of_getElem? there)).indexed
  refine ⟨?_, by decide +kernel, ?_⟩
  · rw [encodeText_text (isFound.trans there) (exact_chainMembers 100), depth_chainMembers,
      if_pos (by decide), encode_object (isFound.trans there)]
    exact encodeMembers_chainMembers there indexed found (congrArg Prod.fst same)
      (congrArg Prod.snd same) 100
  · cases outcome : decode (.registerAll chainAttempts) ⟨false, false⟩ "Chain"
        (chainPayload 100) with
    | ok shown =>
      rw [outcome] at isRefused
      cases isRefused
    | error refusal => exact ⟨refusal, rfl⟩

end SchemaRecords
