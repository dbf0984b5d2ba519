import SchemaRecords.Proofs.Payload.ExactDocuments
import SchemaRecords.Proofs.Payload.PairedDecoders
import SchemaRecords.Proofs.Schema.GivenCharacters
import SchemaRecords.Proofs.Schema.LinkedUnits

/-!
# Decoded documents as text

A decoded document can always be encoded again.  Its text can be encoded to the same bytes, unless
the document nests too deep to be read.  The decoder does not know this limit: it counts messages,
while the reader of the text counts objects and arrays, and an element of a repeated field is in one
of each.
-/

namespace SchemaRecords

namespace Payload

open SchemaRecords.Schema

/-- Under the names of the schema, every decoded document is encoded to some payload. -/
theorem exists_encode_of_decode {pool : Pool} (wellFormed : pool.WellFormed) {name : String}
    {emitDefaults : Bool} {payload : Bytes} {document : Json.Value}
    (decoded : decode pool ⟨emitDefaults, false⟩ name payload = .ok document) :
    ∃ written, encode pool name document = .ok written := by
  cases found : pool.findMessage? name with
  | none =>
    simp only [decode, found] at decoded
    cases decoded
  | some message =>
    rcases wellFormed.exists_of_findMessage? found with ⟨id, there, notEntry⟩
    have readable := Options.readable_of_names wellFormed there emitDefaults
    have alike := paired_decodeWithin wellFormed rfl nestingLimit id message there notEntry
      readable readable payload
    simp only [decode, found] at decoded
    rw [decoded] at alike
    cases alike with
    | ok both =>
      rcases both with ⟨members, _, written, same, _, encoded, _⟩
      exact ⟨written, by rw [same, encode_object found, encoded]⟩

/-- Without floating-point numbers it is exact. -/
theorem exact_of_decode {pool : Pool} (wellFormed : pool.WellFormed) {name : String}
    {message : Message} (found : pool.findMessage? name = some message)
    (free : pool.FloatFree message) {options : Options} {payload : Bytes} {document : Json.Value}
    (decoded : decode pool options name payload = .ok document) : document.Exact := by
  simp only [decode, found] at decoded
  exact showsExactly_decodeWithin wellFormed options nestingLimit message free payload document
    decoded

end Payload

open Schema Payload

/-- Whatever was registered, the text of a decoded document without floating-point numbers is
encoded like the document itself, if it can be read. -/
theorem encodeText_decode (attempts : List (String × String)) {name : String} {message : Message}
    (found : (Pool.registerAll attempts).findMessage? name = some message)
    (free : (Pool.registerAll attempts).FloatFree message) (emitDefaults : Bool) {payload : Bytes}
    {document : Json.Value}
    (decoded : decode (.registerAll attempts) ⟨emitDefaults, false⟩ name payload =
      .ok document) :
    ∃ written, encode (.registerAll attempts) name document = .ok written ∧
      encodeText (.registerAll attempts) name document.text =
        if document.depth ≤ Json.maxNesting then .ok written else .error .invalidJson := by
  have wellFormed := Pool.wellFormed_registerAll attempts
  rcases exists_encode_of_decode wellFormed decoded with ⟨written, encoded⟩
  have exact := exact_of_decode wellFormed found free decoded
  exact ⟨written, encoded, by rw [encodeText_text found exact, encoded]⟩

/-- A schema with texts, and messages inside of messages of the same type. -/
def treeAttempts : List (String × String) :=
  [("tree.proto", "message Tree\x7boptional string label=1;repeated Tree parts=2;\x7d")]

/-- Trees with one part, which has one part, to some depth. -/
def treePayload : Nat → Bytes
  | 0 => []
  | depth + 1 => Wire.Record.encode 2 (.delimited (treePayload depth))

/-- The fields of the schema, and what is shown of two payloads. -/
theorem tree_documents :
    ((Pool.registerAll treeAttempts).findMessage? "Tree").isSome = true ∧
    (∀ message ∈ (Pool.registerAll treeAttempts).messages,
      ∀ field ∈ message.fields, field.type ≠ .scalar .float ∧ field.type ≠ .scalar .double) ∧
    (decode (.registerAll treeAttempts) ⟨false, false⟩ "Tree"
        [18, 3, 10, 1, 97, 10, 2, 34, 10]).toOption.map
          (fun document => (document.text, document.depth)) =
      some ("\x7b\"label\":\"\\\"\\n\",\"parts\":[\x7b\"label\":\"a\"\x7d]\x7d", 3) ∧
    (decode (.registerAll treeAttempts) ⟨false, false⟩ "Tree"
        (treePayload 64)).toOption.map (·.depth) = some 129 := by
  rw [treeAttempts, Pool.registerAll_ofList]
  decide +kernel

/-- No floating-point number can be reached from a tree. -/
theorem exists_tree :
    ∃ message, (Pool.registerAll treeAttempts).findMessage? "Tree" = some message ∧
      (Pool.registerAll treeAttempts).FloatFree message := by
  rcases tree_documents with ⟨isFound, noFloats, _⟩
  rcases Option.isSome_iff_exists.mp isFound with ⟨message, found⟩
  rcases (Pool.wellFormed_registerAll treeAttempts).exists_of_findMessage? found with
    ⟨id, there, _⟩
  exact ⟨message, found, fun other reached =>
    noFloats other (reached.mem_messages (List.mem_of_getElem? there))⟩

/-- The text of a label has escapes. -/
theorem encodeText_decode_label :
    ∃ document, decode (.registerAll treeAttempts) ⟨false, false⟩ "Tree"
        [18, 3, 10, 1, 97, 10, 2, 34, 10] = .ok document ∧
      document.text =
        "\x7b\"label\":\"\\\"\\n\",\"parts\":[\x7b\"label\":\"a\"\x7d]\x7d" ∧
      ∃ written, encode (.registerAll treeAttempts) "Tree" document = .ok written ∧
        encodeText (.registerAll treeAttempts) "Tree" document.text = .ok written := by
  rcases tree_documents with ⟨_, _, shows, _⟩
  rcases Option.map_eq_some_iff.mp shows with ⟨document, isDocument, same⟩
  have decoded := Outcome.toOption_eq_some_iff.mp isDocument
  have depth : document.depth = 3 := congrArg Prod.snd same
  rcases exists_tree with ⟨message, found, free⟩
  rcases encodeText_decode treeAttempts found free false decoded with ⟨written, encoded, printed⟩
  rw [depth, if_pos (by decide)] at printed
  exact ⟨document, decoded, congrArg Prod.fst same, written, encoded, printed⟩

/-- A document with sixty-five objects and sixty-four arrays is encoded, but its text is not. -/
theorem encodeText_decode_tree :
    ∃ document written,
      decode (.registerAll treeAttempts) ⟨false, false⟩ "Tree" (treePayload 64) =
        .ok document ∧
      encode (.registerAll treeAttempts) "Tree" document = .ok written ∧
      encodeText (.registerAll treeAttempts) "Tree" document.text = .error .invalidJson := by
  rcases tree_documents with ⟨_, _, _, shows⟩
  rcases Option.map_eq_some_iff.mp shows with ⟨document, isDocument, depth⟩
  have decoded := Outcome.toOption_eq_some_iff.mp isDocument
  have wellFormed := Pool.wellFormed_registerAll treeAttempts
  rcases exists_tree with ⟨message, found, free⟩
  rcases exists_encode_of_decode wellFormed decoded with ⟨written, encoded⟩
  have exact := exact_of_decode wellFormed found free decoded
  refine ⟨document, written, decoded, encoded, ?_⟩
  rw [encodeText_text found exact, depth, if_neg (by decide)]

end SchemaRecords
