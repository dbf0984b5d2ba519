import SchemaRecords.Proofs.Payload.HeldMessages
import SchemaRecords.Proofs.Schema.GivenCharacters
import SchemaRecords.Proofs.Schema.IndexPositions

/-!
# What an accepted payload holds is accepted

A payload that is accepted holds nothing malformed, at any depth.  Every element of a repeated field
of messages, every entry of a map and every message in an entry is accepted when it is taken alone,
even if a later one takes its place in the document.

Of a single message this is not true of each occurrence.  The contents of a field make up one
message only when they are joined, and a content may be cut in the middle of a value which the next
one goes on with.  And what another member of the oneof displaces is never looked at.  It is the
joined content since then that is accepted, so an occurrence is accepted alone if it is the only one
that counts.
-/

namespace SchemaRecords

open Schema Payload

/-- Whatever was registered, all that an accepted payload holds is accepted by itself: an entry of a
map as an entry, anything else as a message of its type. -/
theorem decode_holds (attempts : List (String × String)) {options : Options} {name : String}
    {message : Message} (found : (Pool.registerAll attempts).findMessage? name = some message)
    {payload : Bytes} {document : Json.Value}
    (accepted : decode (.registerAll attempts) options name payload = .ok document)
    {part : Message × Bytes}
    (holds : Relation.TransGen (Holds (.registerAll attempts)) (message, payload) part) :
    (part.1.isMapEntry = false →
      ∃ inner, decode (.registerAll attempts) options part.1.fullName part.2 = .ok inner) ∧
    (part.1.isMapEntry = true → ∃ entry, decodeEntry (.registerAll attempts)
      (decodeWithin (.registerAll attempts) options (nestingLimit - 1)) part.1 part.2 =
        .ok entry) := by
  have wellFormed := Pool.wellFormed_registerAll attempts
  rcases wellFormed.exists_of_findMessage? found with ⟨id, there, notEntry⟩
  simp only [decode, found] at accepted
  have outermost : Accepted (.registerAll attempts)
      (decodeWithin (.registerAll attempts) options nestingLimit)
      (decodeWithin (.registerAll attempts) options (nestingLimit - 1)) (message, payload) :=
    (accepted_iff notEntry).mpr ⟨document, accepted⟩
  rcases outermost.of_transGen wellFormed (List.mem_of_getElem? there) holds with
    ⟨member, isAccepted⟩
  rcases part with ⟨inner, content⟩
  constructor
  · intro notEntry
    rcases List.mem_iff_getElem?.mp member with ⟨index, place⟩
    have innerThere : (Pool.registerAll attempts).message? ⟨index⟩ = some inner := place
    have named := (Pool.orderly_registerAll attempts).findMessage? wellFormed innerThere notEntry
    simp only [decode, named]
    exact (accepted_iff notEntry).mp isAccepted
  · intro isEntry
    exact (accepted_entry_iff isEntry).mp isAccepted

/-- A schema with messages in the entries of a map. -/
def rackAttempts : List (String × String) :=
  [("rack.proto", "message Item\x7boptional int32 size=1;\x7dmessage Rack\x7bmap<string,Item> items=1;\x7d")]

/-- An entry whose value is given twice. -/
def rackPayload : Bytes := [10, 11, 10, 1, 97, 18, 2, 8, 4, 18, 2, 8, 5]

/-- The first value of the entry, which is not shown, is accepted too. -/
theorem decode_holds_rack :
    ∃ rack entry item document,
      (Pool.registerAll rackAttempts).findMessage? "Rack" = some rack ∧
      decode (.registerAll rackAttempts) .plain "Rack" rackPayload = .ok document ∧
      document.text = "\x7b\"items\":\x7b\"a\":\x7b\"size\":5\x7d\x7d\x7d" ∧
      Holds (.registerAll rackAttempts) (rack, rackPayload) (entry, rackPayload.drop 2) ∧
      Holds (.registerAll rackAttempts) (entry, rackPayload.drop 2) (item, [8, 4]) ∧
      ∃ inner, decode (.registerAll rackAttempts) .plain item.fullName [8, 4] = .ok inner := by
  have isRack : ((Pool.registerAll rackAttempts).findMessage? "Rack").map (fun message =>
      (message.isMapEntry, message.fields.map fun field => (field.number, field.shape))) =
        some (false, [(1, .map ⟨2⟩)]) := by
    rw [rackAttempts, Pool.registerAll_ofList]
    decide +kernel
  have isEntry : ((Pool.registerAll rackAttempts).message? ⟨2⟩).map (fun message =>
      (message.isMapEntry, message.fields)) =
        some (true, [.entryKey .string, .entryValue (.message ⟨0⟩)]) := by
    rw [rackAttempts, Pool.registerAll_ofList]
    decide +kernel
  have isItem : ((Pool.registerAll rackAttempts).message? ⟨0⟩).map (·.isMapEntry) = some false := by
    rw [rackAttempts, Pool.registerAll_ofList]
    decide +kernel
  have isShown : (decode (.registerAll rackAttempts) .plain "Rack" rackPayload).toOption.map (·.text) =
      some "\x7b\"items\":\x7b\"a\":\x7b\"size\":5\x7d\x7d\x7d" := by
    rw [rackAttempts, Pool.registerAll_ofList]
    decide +kernel
  rcases Option.map_eq_some_iff.mp isRack with ⟨rack, found, rackFacts⟩
  rcases Option.map_eq_some_iff.mp isEntry with ⟨entry, entryFound, entryFacts⟩
  rcases Option.map_eq_some_iff.mp isItem with ⟨item, itemFound, notEntry⟩
  rcases Option.map_eq_some_iff.mp isShown with ⟨document, isDocument, isText⟩
  rcases Prod.mk.inj rackFacts with ⟨rackNotEntry, rackFields⟩
  rcases Prod.mk.inj entryFacts with ⟨entryIsEntry, entryFields⟩
  rcases List.map_eq_singleton_iff.mp rackFields with ⟨field, isField, fieldFacts⟩
  rcases Prod.mk.inj fieldFacts with ⟨number, shape⟩
  have accepted := Outcome.toOption_eq_some_iff.mp isDocument
  have outer : Holds (.registerAll rackAttempts) (rack, rackPayload) (entry, rackPayload.drop 2) := by
    refine .entry rackNotEntry (isField ▸ List.mem_singleton_self field) shape entryFound ?_
    rw [number]
    decide +kernel
  have inner : Holds (.registerAll rackAttempts) (entry, rackPayload.drop 2) (item, [8, 4]) := by
    refine .value entryIsEntry entryFields itemFound ?_
    decide +kernel
  exact ⟨rack, entry, item, document, found, accepted, isText, outer, inner,
    (decode_holds rackAttempts found accepted (.tail (.single outer) inner)).1 notEntry⟩

/-- A schema with a message in a field, and with one in a oneof. -/
def holderAttempts : List (String × String) :=
  [("holder.proto", "message Item\x7boptional int32 size=1;\x7d"
    ++ "message Holder\x7boptional Item item=1;oneof choice\x7bItem other=2;int32 count=3;\x7d\x7d")]

/-- A content that is no message is accepted if the next one goes on with it, and if another member
of the oneof displaces it. -/
theorem decode_holds_holder :
    ((Pool.registerAll holderAttempts).findMessage? "Holder").map (fun message =>
        message.fields.map fun field => (field.number, field.type)) =
      some [(1, .message ⟨0⟩), (2, .message ⟨0⟩), (3, .scalar .int32)] ∧
    ((Pool.registerAll holderAttempts).message? ⟨0⟩).map (·.fullName) = some "Item" ∧
    ((decode (.registerAll holderAttempts) .plain "Holder" [10, 1, 8, 10, 1, 1]).toOption.map (·.text) =
        some "\x7b\"item\":\x7b\"size\":1\x7d\x7d" ∧
      [8] ∈ contentsNumbered 1 [10, 1, 8, 10, 1, 1]) ∧
    ((decode (.registerAll holderAttempts) .plain "Holder" [18, 1, 8, 24, 1]).toOption.map (·.text) =
        some "\x7b\"count\":1\x7d" ∧
      [8] ∈ contentsNumbered 2 [18, 1, 8, 24, 1]) ∧
    (decode (.registerAll holderAttempts) .plain "Item" [8]).toOption = none := by
  rw [holderAttempts, ← String.ofList_append, Pool.registerAll_ofList]
  decide +kernel

end SchemaRecords
