import SchemaRecords.Proofs.Payload.PairedDecoders
import SchemaRecords.Proofs.Schema.GivenCharacters
import SchemaRecords.Proofs.Schema.LinkedUnits

/-!
# Keys of the schema and keys of JSON

A document may show its fields under the names of the schema or under their JSON names.  Both
documents are encoded to the same payload, as long as in no message that can be reached a field
takes the JSON name of another: keys are looked up among the names of the schema first.  Where a
field does take it, the value that is shown under the JSON name goes to the wrong field.
-/

namespace SchemaRecords
open Schema Payload

/-- Whatever was registered, the documents of a payload in the two styles of keys are encoded to
the same payload, if no field takes the JSON name of another. -/
theorem decode_keyStyles (attempts : List (String × String)) {name : String} {message : Message}
    (found : (Pool.registerAll attempts).findMessage? name = some message)
    (apart : ∀ other, (Pool.registerAll attempts).Reaches message other → other.KeysApart)
    (emitDefaults : Bool) (payload : Bytes) :
    Outcome.Related
      (fun styled plain => ∃ written, encode (.registerAll attempts) name styled = .ok written ∧
        encode (.registerAll attempts) name plain = .ok written)
      (decode (.registerAll attempts) ⟨emitDefaults, true⟩ name payload)
      (decode (.registerAll attempts) ⟨emitDefaults, false⟩ name payload) := by
  have wellFormed := Pool.wellFormed_registerAll attempts
  rcases wellFormed.exists_of_findMessage? found with ⟨id, there, notEntry⟩
  have styled : Options.Readable ⟨emitDefaults, true⟩ (.registerAll attempts) message := by
    intro other reached
    have held := reached.mem_messages (List.mem_of_getElem? there)
    exact (wellFormed.messages other held).indexed.fieldByName?_jsonName_iff.mpr
      (apart other reached)
  have plain := Options.readable_of_names wellFormed there emitDefaults
  have same : (Options.mk emitDefaults true).emitDefaults =
      (Options.mk emitDefaults false).emitDefaults := rfl
  simp only [decode, found]
  apply (paired_decodeWithin wellFormed same nestingLimit id message there notEntry styled plain
    payload).imp
  rintro one other ⟨members, others, written, isOne, isOther, encoded, otherEncoded⟩
  subst isOne isOther
  exact ⟨written, (encode_object found members).trans encoded,
    (encode_object found others).trans otherEncoded⟩

/-- A schema with names that JSON spells in another way, one of them as the schema says, and
messages inside of messages. -/
def styleAttempts : List (String × String) :=
  [("style.proto", "message Style\x7boptional int32 line_width=1;optional string fill=2[json_name=\"paint\"];map<int32,Style> sub_styles=3;\x7d")]

theorem decode_keyStyles_style :
    ∃ styled plain,
      decode (.registerAll styleAttempts) ⟨false, true⟩ "Style"
        [26, 7, 8, 4, 18, 3, 18, 1, 97, 8, 9] = .ok styled ∧
      styled.text = "\x7b\"lineWidth\":9,\"subStyles\":\x7b\"4\":\x7b\"paint\":\"a\"\x7d\x7d\x7d" ∧
      decode (.registerAll styleAttempts) ⟨false, false⟩ "Style"
        [26, 7, 8, 4, 18, 3, 18, 1, 97, 8, 9] = .ok plain ∧
      plain.text = "\x7b\"line_width\":9,\"sub_styles\":\x7b\"4\":\x7b\"fill\":\"a\"\x7d\x7d\x7d" ∧
      encode (.registerAll styleAttempts) "Style" styled =
        encode (.registerAll styleAttempts) "Style" plain := by
  have isStyled : (decode (.registerAll styleAttempts) ⟨false, true⟩ "Style"
      [26, 7, 8, 4, 18, 3, 18, 1, 97, 8, 9]).toOption.map (·.text) =
      some "\x7b\"lineWidth\":9,\"subStyles\":\x7b\"4\":\x7b\"paint\":\"a\"\x7d\x7d\x7d" := by
    rw [styleAttempts, Pool.registerAll_ofList]
    decide +kernel
  have isPlain : (decode (.registerAll styleAttempts) ⟨false, false⟩ "Style"
      [26, 7, 8, 4, 18, 3, 18, 1, 97, 8, 9]).toOption.map (·.text) =
      some "\x7b\"line_width\":9,\"sub_styles\":\x7b\"4\":\x7b\"fill\":\"a\"\x7d\x7d\x7d" := by
    rw [styleAttempts, Pool.registerAll_ofList]
    decide +kernel
  have isFound : ((Pool.registerAll styleAttempts).findMessage? "Style").isSome = true := by
    rw [styleAttempts, Pool.registerAll_ofList]
    decide +kernel
  have apart : ∀ message ∈ (Pool.registerAll styleAttempts).messages, message.KeysApart := by
    rw [styleAttempts, Pool.registerAll_ofList]
    decide +kernel
  rcases Option.map_eq_some_iff.mp isStyled with ⟨styled, styledDocument, styledText⟩
  rcases Option.map_eq_some_iff.mp isPlain with ⟨plain, plainDocument, plainText⟩
  rcases Option.isSome_iff_exists.mp isFound with ⟨message, found⟩
  rcases (Pool.wellFormed_registerAll styleAttempts).exists_of_findMessage? found with
    ⟨id, there, _⟩
  have same := decode_keyStyles styleAttempts found (fun other reached =>
    apart other (reached.mem_messages (List.mem_of_getElem? there))) false
    [26, 7, 8, 4, 18, 3, 18, 1, 97, 8, 9]
  have styledDecoded := Outcome.toOption_eq_some_iff.mp styledDocument
  have plainDecoded := Outcome.toOption_eq_some_iff.mp plainDocument
  rw [styledDecoded, plainDecoded] at same
  cases same with
  | ok both =>
    rcases both with ⟨written, styledWritten, plainWritten⟩
    exact ⟨styled, plain, styledDecoded, styledText, plainDecoded, plainText,
      styledWritten.trans plainWritten.symm⟩

/-- A schema in which one field takes the JSON name of another. -/
def pairAttempts : List (String × String) :=
  [("pair.proto", "message Pair\x7boptional int32 a_b=1;optional int32 aB=2;\x7d")]

/-- The value of the first field is shown under the name of the second. -/
theorem decode_keyStyles_pair :
    ∃ styled plain, decode (.registerAll pairAttempts) ⟨false, true⟩ "Pair" [8, 5] = .ok styled ∧
      decode (.registerAll pairAttempts) ⟨false, false⟩ "Pair" [8, 5] = .ok plain ∧
      encode (.registerAll pairAttempts) "Pair" styled = .ok [16, 5] ∧
      encode (.registerAll pairAttempts) "Pair" plain = .ok [8, 5] := by
  have isStyled : (decode (.registerAll pairAttempts) ⟨false, true⟩ "Pair" [8, 5]).toOption.map
      (fun document => (encode (.registerAll pairAttempts) "Pair" document).toOption) =
      some (some [16, 5]) := by
    rw [pairAttempts, Pool.registerAll_ofList]
    decide +kernel
  have isPlain : (decode (.registerAll pairAttempts) ⟨false, false⟩ "Pair" [8, 5]).toOption.map
      (fun document => (encode (.registerAll pairAttempts) "Pair" document).toOption) =
      some (some [8, 5]) := by
    rw [pairAttempts, Pool.registerAll_ofList]
    decide +kernel
  rcases Option.map_eq_some_iff.mp isStyled with ⟨styled, styledDecoded, styledEncoded⟩
  rcases Option.map_eq_some_iff.mp isPlain with ⟨plain, plainDecoded, plainEncoded⟩
  exact ⟨styled, plain, Outcome.toOption_eq_some_iff.mp styledDecoded,
    Outcome.toOption_eq_some_iff.mp plainDecoded, Outcome.toOption_eq_some_iff.mp styledEncoded,
    Outcome.toOption_eq_some_iff.mp plainEncoded⟩

end SchemaRecords
