import SchemaRecords.Proofs.Payload.CarriedValues

/-!
# What is written for each field

The values that are written for a field are those that its value is converted to, in the way of its
shape.  Every payload of a document is written field by field, with such values for the fields that
the document sets and none for the others.  Nothing is asked of the message here: the values need
not be readable.
-/

namespace SchemaRecords.Payload

open SchemaRecords.Schema

variable {pool : Pool} {message : Message} {field : Field}

/-- A value of a document is converted to the values that are written for a field. -/
def FieldConverted (pool : Pool) (field : Field) (given : Json.Value)
    (wires : List Wire.Value) : Prop :=
  match field.shape with
  | .singular type _ => ∃ wire, convert pool field.name type given = .ok wire ∧
      wires = if !field.hasPresence && isZero wire then [] else [wire]
  | .repeated type packed => ∃ elements,
      convertElements pool field.name type given = .ok elements ∧ wires = blocks packed elements
  | .map id => ∃ contents, convertMap pool field.name id given = .ok contents ∧
      wires = contents.map .delimited

theorem FieldConverted.records {given : Json.Value} {wires : List Wire.Value}
    (converted : FieldConverted pool field given wires) :
    valueRecords pool field given = .ok (writtenValues field wires) := by
  rw [valueRecords, fieldRecords]
  unfold FieldConverted at converted
  cases shape : field.shape with
  | singular type explicit =>
    rw [shape] at converted
    rcases converted with ⟨wire, ok, same⟩
    rw [same, ← singleRecord_ok, ← ok]
  | repeated type packed =>
    rw [shape] at converted
    rcases converted with ⟨elements, ok, same⟩
    rw [same, ← repeatedRecords_ok, ← ok]
  | map id =>
    rw [shape] at converted
    rcases converted with ⟨contents, ok, same⟩
    rw [same, ← entryRecords_ok, ← ok]

/-- Whatever is written for a field was converted. -/
theorem exists_fieldConverted {given : Json.Value} {records : Bytes}
    (written : valueRecords pool field given = .ok records) :
    ∃ wires, FieldConverted pool field given wires := by
  rw [valueRecords, fieldRecords] at written
  unfold FieldConverted
  cases shape : field.shape with
  | singular type explicit =>
    rw [shape] at written
    rcases Outcome.map_eq_ok_iff.mp written with ⟨wire, ok, _⟩
    exact ⟨_, wire, ok, rfl⟩
  | repeated type packed =>
    rw [shape] at written
    rcases Outcome.map_eq_ok_iff.mp written with ⟨elements, ok, _⟩
    exact ⟨_, elements, ok, rfl⟩
  | map id =>
    rw [shape] at written
    rcases Outcome.map_eq_ok_iff.mp written with ⟨contents, ok, _⟩
    exact ⟨_, contents, ok, rfl⟩

/-- A payload of a document is written field by field, with values that were converted for the
fields that are set and with none for the others. -/
theorem exists_convertedFields (indexed : message.Indexed) {members : Json.Members}
    {payload : Bytes} (encoded : encodeMembers pool message members = .ok payload) :
    ∃ (given : Field → Option Json.Value) (wires : Field → List Wire.Value),
      payload = writtenFields message wires ∧
        (∀ field, given field = none → wires field = []) ∧
        (∀ field value, given field = some value → FieldConverted pool field value (wires field)) ∧
        ∀ field value, (field, value) ∈ givenFields message members → given field = some value := by
  rcases exists_of_encodeMembers indexed encoded with ⟨given, facts, _, isGiven, whole⟩
  have each (field : Field) (value : Json.Value) (held : given field = some value) :
      ∃ wires, FieldConverted pool field value wires := by
    rcases facts field value held with ⟨_, _, _, records, written⟩
    exact exists_fieldConverted written
  rcases exists_wires_of_held each with ⟨wires, absent, converted⟩
  have records := fun field value held => (converted field value held).records
  exact ⟨given, wires, whole wires records absent, absent, converted, isGiven⟩

/-- A payload of a document is written field by field. -/
theorem exists_writtenFields (indexed : message.Indexed) {members : Json.Members}
    {payload : Bytes} (encoded : encodeMembers pool message members = .ok payload) :
    ∃ wires : Field → List Wire.Value, payload = writtenFields message wires ∧
      ∀ field given, (field, given) ∈ givenFields message members →
        FieldConverted pool field given (wires field) := by
  rcases exists_convertedFields indexed encoded with ⟨given, wires, same, _, converted, isGiven⟩
  exact ⟨wires, same, fun field value there => converted field value (isGiven field value there)⟩

end SchemaRecords.Payload
