import SchemaRecords.Proofs.Schema.WellFormed

/-!
# Looking up the fields of a message

In a message whose tables are in order every field is found under its number and under its
name, and is listed by its oneof and by no other.  Under its JSON name it is found only if no other
field takes that name.
-/

namespace SchemaRecords.Schema.Message

/-- No field has the JSON name of another as its name, or as its JSON name. -/
def KeysApart (message : Message) : Prop :=
  ∀ field ∈ message.fields, ∀ other ∈ message.fields,
    other.name = field.jsonName ∨ other.jsonName = field.jsonName → other = field

instance (message : Message) : Decidable message.KeysApart :=
  inferInstanceAs (Decidable (∀ field ∈ message.fields, ∀ other ∈ message.fields,
    other.name = field.jsonName ∨ other.jsonName = field.jsonName → other = field))

namespace Indexed

variable {message : Message} (indexed : message.Indexed)
include indexed

theorem nodup : message.fields.Nodup :=
  indexed.numbersDistinct.of_map

theorem eq_of_number {first second : Field} (firstMember : first ∈ message.fields)
    (secondMember : second ∈ message.fields) (same : first.number = second.number) :
    first = second :=
  List.inj_on_of_nodup_map indexed.numbersDistinct firstMember secondMember same

theorem fieldByNumber?_of_mem {field : Field} (member : field ∈ message.fields) :
    message.fieldByNumber? field.number = some field := by
  rcases List.mem_iff_getElem?.mp member with ⟨position, there⟩
  have filed := (indexed.byNumber field.number position).mpr ⟨field, there, rfl⟩
  rw [fieldByNumber?, filed, Option.bind_some, there]

theorem number_of_fieldByNumber? {number : Nat} {field : Field}
    (found : message.fieldByNumber? number = some field) : field.number = number := by
  rcases Option.bind_eq_some_iff.mp found with ⟨position, filed, there⟩
  rcases (indexed.byNumber number position).mp filed with ⟨other, isOther, same⟩
  exact Option.some.inj (there.symm.trans isOther) ▸ same

theorem fieldByName?_of_mem {field : Field} (member : field ∈ message.fields) :
    message.fieldByName? field.name = some field := by
  rcases List.mem_iff_getElem?.mp member with ⟨position, there⟩
  have filed := (indexed.byName field.name position).mpr ⟨field, there, rfl⟩
  rw [fieldByName?, filed, Option.bind_some, there, Option.some_or]

/-- Every field is found under its JSON name exactly where the JSON names are kept apart. -/
theorem fieldByName?_jsonName_iff :
    (∀ field ∈ message.fields, message.fieldByName? field.jsonName = some field) ↔
      message.KeysApart := by
  constructor
  · rintro found field member other otherMember (same | same)
    · have isOther := indexed.fieldByName?_of_mem otherMember
      rw [same, found field member] at isOther
      exact (Option.some.inj isOther).symm
    · have isOther := found other otherMember
      rw [same, found field member] at isOther
      exact (Option.some.inj isOther).symm
  · intro apart field member
    rw [fieldByName?]
    cases filed : message.byName.find? field.jsonName with
    | some position =>
      rcases (indexed.byName field.jsonName position).mp filed with ⟨other, there, same⟩
      rw [Option.bind_some, there, Option.some_or,
        apart field member other (List.mem_of_getElem? there) (Or.inl same)]
    | none =>
      rw [Option.bind_none, Option.none_or]
      cases found : message.fields.find? fun other => other.jsonName = field.jsonName with
      | some other =>
        have same : other.jsonName = field.jsonName := by simpa using List.find?_some found
        rw [apart field member other (List.mem_of_find?_eq_some found) (Or.inr same)]
      | none =>
        have missing := List.find?_eq_none.mp found field member
        exact absurd (decide_eq_true rfl) missing

theorem mem_membersOf {index : Nat} {oneof : Oneof} (listed : message.oneofs[index]? = some oneof)
    (field : Field) :
    field ∈ message.membersOf oneof ↔ field ∈ message.fields ∧ field.oneof = some index := by
  have positions := indexed.oneofs index oneof listed
  rw [membersOf, List.mem_filterMap]
  constructor
  · rintro ⟨position, member, there⟩
    rcases (positions position).mp member with ⟨other, same, oneofSame⟩
    have equal : other = field := Option.some.inj (same.symm.trans there)
    exact ⟨List.mem_of_getElem? there, equal ▸ oneofSame⟩
  · rintro ⟨member, oneofSame⟩
    rcases List.mem_iff_getElem?.mp member with ⟨position, there⟩
    exact ⟨position, (positions position).mpr ⟨field, there, oneofSame⟩, there⟩

theorem nodup_membersOf {oneof : Oneof} (member : oneof ∈ message.oneofs) :
    (message.membersOf oneof).Nodup := by
  apply (indexed.oneofMembersDistinct oneof member).filterMap
  intro first second field firstThere secondThere
  have inside := (List.getElem?_eq_some_iff.mp firstThere).1
  apply (List.getElem?_inj inside indexed.nodup).mp
  exact Eq.trans firstThere (Eq.symm secondThere)

end Indexed

end SchemaRecords.Schema.Message
