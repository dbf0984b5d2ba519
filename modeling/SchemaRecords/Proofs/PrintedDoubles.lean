import SchemaRecords.Proofs.Json.RereadDoubles
import SchemaRecords.Proofs.Payload.DefaultValues
import SchemaRecords.Proofs.Payload.ExactDocuments
import SchemaRecords.Proofs.Payload.OwnRecords
import SchemaRecords.Proofs.Schema.GivenCharacters
import SchemaRecords.Proofs.Schema.LinkedUnits

/-!
# Doubles that pass through a text

The document of a payload holds a double as it is, and so it is encoded to the same payload again.
Its text does not hold it as well.  The text has enough digits, and whatever is read from it can be
encoded, but the value that comes back is only close: it has the same sign, it is no more than four
steps away, and it is zero only where it was.  Few digits come back as they were.
-/

namespace SchemaRecords

namespace Json.Value

open SchemaRecords.Number

/-- The text of an object with one double is read as an object with the double that is read for
it. -/
theorem read?_text_double (key : String) {x : Double} (finite : x.isFinite = true) :
    read? (object [(key, .number (.real x))]).text =
      some (object [(key, .number (.real x.reread))]) := by
  rcases x.readsAs_numberText finite with ⟨legal, value⟩
  have isText : (object [(key, .number (.real x))]).render =
      '\x7b' :: (renderString key ++ ':' :: (x.numberText.write ++ ['\x7d'])) := by
    rw [x.write_numberText finite]
    simp [render, renderMembers]
  have closes : Closes ['\x7d'] := .of_mem (by decide) []
  have isTree (fuel : Nat) : Tree.readValue (fuel + 3) (object [(key, .number (.real x))]).render =
      some (.object [(piecesOf key, .number x.numberText)], []) := by
    have members := readMembers_key key (fuel + 1) (x.numberText.write ++ ['\x7d'])
    rw [readValue_write legal fuel closes, Option.bind_some, skipSpace_cons (by decide)] at members
    rw [isText]
    rw [renderString] at members ⊢
    simp only [List.cons_append, List.append_assoc, List.nil_append] at members ⊢
    rw [readValue_members, members]
    rfl
  have enough : 2 * (object [(key, .number (.real x))]).render.length + 2 =
      2 * (object [(key, .number (.real x))]).render.length - 1 + 3 := by
    rw [isText, List.length_cons]
    omega
  have read : Tree.read? (object [(key, .number (.real x))]).render =
      some (.object [(piecesOf key, .number x.numberText)]) := by
    rw [Tree.read?, enough, isTree]
    rfl
  have shallow : (Tree.object [(piecesOf key, .number x.numberText)]).depth ≤ maxNesting :=
    (by decide : 1 ≤ maxNesting)
  rw [read?, text, String.toList_ofList, read, Option.bind_eq_bind, Option.bind_some,
    if_pos shallow]
  simp [ofTree?, ofMembers?, string?_piecesOf, value, Members.insert]

end Json.Value

namespace Number.Double

/-- Only positive zero is read as positive zero. -/
theorem reread_eq_zero_iff {x : Double} (finite : x.isFinite = true) :
    x.reread = .zero ↔ x = .zero := by
  have isZero : Double.zero.reading = .finite false 0 (-1074) := by decide
  constructor
  · intro zero
    rcases exists_reading finite with ⟨negative, significand, scale, reading⟩
    have none : x.magnitude = 0 := by
      rw [← (reread_standsFor finite).zero, zero, magnitude_of_reading isZero, Nat.cast_zero,
        zero_mul]
    rw [magnitude_of_reading reading, mul_eq_zero, Nat.cast_eq_zero] at none
    have nothing : significand = 0 := none.resolve_right (by positivity)
    subst nothing
    rw [← reread_zero reading, zero]
  · rintro rfl
    exact reread_zero isZero

end Number.Double

namespace Payload

open SchemaRecords.Number SchemaRecords.Schema

section Fields

variable {pool : Pool} {name : String} {message : Message} {field : Field} {explicit : Bool}
  {x : Double}

/-- The payload of a field with one double; positive zero is left out where presence is not
tracked. -/
def doublePayload (field : Field) (x : Double) : Bytes :=
  if field.hasPresence = false ∧ x = .zero then []
  else Wire.Record.encode field.number (.fixed64 x.word)

/-- A finite double of a document is encoded as it is. -/
theorem encode_double (found : pool.findMessage? name = some message) (indexed : message.Indexed)
    (member : field ∈ message.fields)
    (shape : field.shape = .singular (.scalar .double) explicit) (x : Double) :
    encode pool name (.object [(field.name, .number (.real x))]) =
      .ok (doublePayload field x) := by
  have written : Written pool (.scalar .double) (.number (.real x)) (.fixed64 x.word) :=
    ⟨rfl, rfl, fun _ => rfl⟩
  have noBits : x.word = 0 ↔ x = .zero := ⟨congrArg Double.mk, congrArg Double.word⟩
  rw [encode_written shape found indexed member written, doublePayload]
  by_cases omitted : field.hasPresence = false ∧ x = .zero
  · rw [if_pos omitted, if_pos (by simp [isZero, omitted.1, noBits.mpr omitted.2])]
    rfl
  · rw [if_neg omitted, if_neg (by simpa [isZero, noBits] using omitted)]
    exact congrArg Except.ok (List.append_nil _)

/-- The payload of a finite double is decoded to a document with this double. -/
theorem decode_double (found : pool.findMessage? name = some message) (indexed : message.Indexed)
    (member : field ∈ message.fields)
    (shape : field.shape = .singular (.scalar .double) explicit) (finite : x.isFinite = true) :
    decode pool .plain name (Wire.Record.encode field.number (.fixed64 x.word)) =
      .ok (.object (if field.hasPresence = false ∧ x = .zero then []
        else [(field.name, .number (.real x))])) := by
  rcases Double.exists_reading finite with ⟨negative, significand, scale, reading⟩
  have shown : renderDouble x = .number (.real x) := by rw [renderDouble, reading]
  have reads : Reads pool refuse (.scalar .double) (.fixed64 x.word) (.number (.real x)) := by
    intro _ _
    rw [← shown]
    rfl
  have fits : (Wire.Value.fixed64 x.word).Fits := trivial
  have alone : writtenValues field [.fixed64 x.word] =
      Wire.Record.encode field.number (.fixed64 x.word) := List.append_nil _
  have decoded := decode_writtenValues shape rfl found indexed member fits reads
  rw [alone, ← shown, isDefault_renderDouble (.inr rfl), shown] at decoded
  rw [decoded]
  congr 2
  by_cases omitted : field.hasPresence = false ∧ x = .zero
  · rw [if_pos omitted, if_neg (by simp [omitted.1, omitted.2])]
  · rw [if_neg omitted, if_pos (by simpa [imp_iff_not_or] using omitted)]

/-- Payloads of different doubles differ. -/
theorem doublePayload_inj (found : pool.findMessage? name = some message)
    (indexed : message.Indexed) (member : field ∈ message.fields)
    (shape : field.shape = .singular (.scalar .double) explicit) {y : Double}
    (finite : x.isFinite = true) (finiteToo : y.isFinite = true) (zeros : y = .zero ↔ x = .zero) :
    doublePayload field y = doublePayload field x ↔ y = x := by
  refine ⟨fun same => ?_, fun same => same ▸ rfl⟩
  by_cases zero : x = .zero
  · rw [zero, zeros.mpr zero]
  · have omitted {z : Double} (other : z ≠ .zero) : ¬ (field.hasPresence = false ∧ z = .zero) :=
      fun both => other both.2
    have different : y ≠ .zero := fun isZero => zero (zeros.mp isZero)
    rw [doublePayload, doublePayload, if_neg (omitted zero), if_neg (omitted different)] at same
    have first := decode_double found indexed member shape finite
    have second := decode_double found indexed member shape finiteToo
    rw [same, first, if_neg (omitted zero), if_neg (omitted different)] at second
    simp only [Except.ok.injEq, Json.Value.object.injEq, List.cons.injEq, Prod.mk.injEq,
      Json.Value.number.injEq, Json.Number.real.injEq, true_and, and_true] at second
    exact second.symm

/-- The text of a document with one double, or with none, is encoded to the double that is read. -/
theorem encodeText_shown (found : pool.findMessage? name = some message)
    (indexed : message.Indexed) (member : field ∈ message.fields)
    (shape : field.shape = .singular (.scalar .double) explicit) (finite : x.isFinite = true) :
    encodeText pool name (Json.Value.object (if field.hasPresence = false ∧ x = .zero then []
      else [(field.name, .number (.real x))])).text = .ok (doublePayload field x.reread) := by
  by_cases omitted : field.hasPresence = false ∧ x = .zero
  · have nothing : (Json.Value.object []).Exact :=
      .object List.nodup_nil (List.forall_mem_nil _)
    rw [if_pos omitted, encodeText_text found nothing, if_pos (by decide), encode_object found,
      encodeMembers_nil, doublePayload,
      if_pos ⟨omitted.1, (Double.reread_eq_zero_iff finite).mpr omitted.2⟩]
  · simp only [if_neg omitted, encodeText, found, Json.Value.read?_text_double field.name finite]
    exact encode_double found indexed member shape x.reread

end Fields

end Payload

open Number Schema Payload

/-- Whatever was registered, a finite double in the payload of its field is decoded to a document
that is encoded to this payload again.  The text of the document is encoded too, to the double that
is read for it: one that is close in any case, and the same one if its digits are few. -/
theorem encodeText_double (attempts : List (String × String)) {name : String} {message : Message}
    (found : (Pool.registerAll attempts).findMessage? name = some message) {field : Field}
    (member : field ∈ message.fields) {explicit : Bool}
    (shape : field.shape = .singular (.scalar .double) explicit) {x : Double}
    (finite : x.isFinite = true) :
    (∃ document, decode (.registerAll attempts) .plain name
        (Wire.Record.encode field.number (.fixed64 x.word)) = .ok document ∧
      encode (.registerAll attempts) name document = .ok (doublePayload field x) ∧
      encodeText (.registerAll attempts) name document.text =
        .ok (doublePayload field x.reread)) ∧
    (doublePayload field x.reread = doublePayload field x ↔ x.reread = x) ∧
    x.reread.StandsFor x ∧ (x.FewDigits → x.reread = x) := by
  rcases (Pool.wellFormed_registerAll attempts).exists_of_findMessage? found with ⟨id, there, _⟩
  have indexed := ((Pool.wellFormed_registerAll attempts).messages message
    (List.mem_of_getElem? there)).indexed
  have close := Double.reread_standsFor finite
  refine ⟨⟨_, decode_double found indexed member shape finite, ?_,
    encodeText_shown found indexed member shape finite⟩,
    doublePayload_inj found indexed member shape finite close.finite
      (Double.reread_eq_zero_iff finite), close, Double.reread_eq_self finite⟩
  by_cases omitted : field.hasPresence = false ∧ x = .zero
  · rw [if_pos omitted, encode_object found, encodeMembers_nil, doublePayload, if_pos omitted]
  · rw [if_neg omitted]
    exact encode_double found indexed member shape x

/-- A schema with a double. -/
def weightAttempts : List (String × String) :=
  [("weight.proto", "message Weight\x7boptional double grams=1;\x7d")]

/-- The double nearest to 0.3 comes back as it was. -/
theorem encodeText_double_few :
    ∃ message field document,
      (Pool.registerAll weightAttempts).findMessage? "Weight" = some message ∧
      field ∈ message.fields ∧ field.shape = .singular (.scalar .double) true ∧
      (Double.mk 0x3fd3333333333333).FewDigits ∧
      decode (.registerAll weightAttempts) .plain "Weight"
          (Wire.Record.encode field.number (.fixed64 0x3fd3333333333333)) = .ok document ∧
      encodeText (.registerAll weightAttempts) "Weight" document.text =
        .ok (doublePayload field ⟨0x3fd3333333333333⟩) := by
  have isField : ((Pool.registerAll weightAttempts).findMessage? "Weight").bind (fun message =>
      message.fields[0]?.map (·.shape)) = some (.singular (.scalar .double) true) := by
    rw [weightAttempts, Pool.registerAll_ofList]
    decide +kernel
  have few : (Double.mk 0x3fd3333333333333).FewDigits := by decide +kernel
  rcases Option.bind_eq_some_iff.mp isField with ⟨message, found, first⟩
  rcases Option.map_eq_some_iff.mp first with ⟨field, there, shape⟩
  have member := List.mem_of_getElem? there
  rcases encodeText_double weightAttempts found member shape
    (by decide : (Double.mk 0x3fd3333333333333).isFinite = true) with
    ⟨⟨document, decoded, _, encoded⟩, _, _, same⟩
  exact ⟨message, field, document, found, member, shape, few, decoded, same few ▸ encoded⟩

/-- The double 7205759403792801 comes back as the next one: its seventeen digits, with the zero
behind the point, do not fit into fifty-three bits. -/
theorem encodeText_double_next :
    (decode (.registerAll weightAttempts) .plain "Weight"
        [9, 0xa1, 0x99, 0x99, 0x99, 0x99, 0x99, 0x39, 0x43]).toOption.map (·.text) =
      some "\x7b\"grams\":7205759403792801.0\x7d" ∧
    encodeText (.registerAll weightAttempts) "Weight"
        "\x7b\"grams\":7205759403792801.0\x7d" =
      .ok [9, 0xa2, 0x99, 0x99, 0x99, 0x99, 0x99, 0x39, 0x43] := by
  rw [weightAttempts, Pool.registerAll_ofList]
  decide +kernel

end SchemaRecords
