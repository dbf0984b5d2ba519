import SchemaRecords.Payload.Conversion
import SchemaRecords.Proofs.Bytes.WrittenBase64

/-!
# Spellings of bytes

Text for a field of bytes may come in either alphabet and with or without padding, and nothing in it
says which form is meant.  The forms are tried one after the other, and the first that accepts the
text decides.  The order makes no difference: a text that several forms accept spells the same bytes
in all of them, and a text that is accepted at all is the one spelling that some form has for the
bytes, without stray bits, missing padding or symbols of the other alphabet.
-/

namespace SchemaRecords.Payload

open Bytes

/-- A text is read as bytes exactly if it is one of their four spellings, and a field of bytes takes
it as these.  Whichever form accepts a text, the bytes it reads are those that are read by trying all
forms in order. -/
theorem decodeAny?_spelled :
    (∀ (given : String) (bytes : Bytes),
      Base64.decodeAny? (Text.Utf8.encode given) = some bytes ↔
        ∃ form, given = Base64.text form bytes) ∧
    (∀ (form : Base64.Form) (given : String) (bytes : Bytes),
      Base64.decode form (Text.Utf8.encode given) = .ok bytes →
        Base64.decodeAny? (Text.Utf8.encode given) = some bytes) ∧
    ∀ (field given : String) (bytes : Bytes),
      convertScalar field .bytes (.string given) = .ok (.delimited bytes) ↔
        ∃ form, given = Base64.text form bytes := by
  refine ⟨fun given bytes => Base64.decodeAny?_encode_iff, fun form given bytes accepted => ?_,
    fun field given bytes => ?_⟩
  · exact Base64.decodeAny?_eq_some_iff.mpr ⟨form, Base64.decode_eq_ok_iff.mp accepted⟩
  · rw [← Base64.decodeAny?_encode_iff, convertScalar]
    cases Base64.decodeAny? (Text.Utf8.encode given) with
    | none => simp [mismatch]
    | some content => simp

/-- Two bytes without padding, in the alphabet that is tried last. -/
theorem decodeAny?_spelled_urlSafe :
    Base64.decode ⟨.urlSafe, .forbidden⟩ (Text.Utf8.encode "-_8") = .ok [0xFB, 0xFF] ∧
      Base64.decodeAny? (Text.Utf8.encode "-_8") = some [0xFB, 0xFF] ∧
      convertScalar "digest" .bytes (.string "-_8") = .ok (.delimited [0xFB, 0xFF]) := by
  have accepted : Base64.decode ⟨.urlSafe, .forbidden⟩ (Text.Utf8.encode "-_8") =
      .ok [0xFB, 0xFF] := Outcome.toOption_eq_some_iff.mp (by decide +kernel)
  have read := decodeAny?_spelled.2.1 _ _ _ accepted
  have spelled := (decodeAny?_spelled.1 _ _).mp read
  exact ⟨accepted, read, (decodeAny?_spelled.2.2 "digest" _ _).mpr spelled⟩

/-- Symbols of both alphabets, loose bits, and padding that is missing in part are not accepted. -/
example : Base64.decodeAny? (Text.Utf8.encode "-/8=") = none ∧
    Base64.decodeAny? (Text.Utf8.encode "+/9=") = none ∧
    Base64.decodeAny? (Text.Utf8.encode "+w=") = none := by
  decide +kernel

end SchemaRecords.Payload
