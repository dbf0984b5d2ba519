import Mathlib.Data.List.Forall2
import SchemaRecords.Proofs.Schema.FieldLookups
import SchemaRecords.Proofs.Schema.Relocation

/-!
# Maps as lists of messages

A map field stands for repeated entries.  A schema can also say so itself: it declares a message
with a key and a value, and a repeated field of that message in place of the map.  Such a schema
is a variant of the one with the map.  Both declare the same fields otherwise, but the message of
the entries is one that a schema can name, and so it may stand elsewhere in the pool, and so may
what comes behind it.

Some maps may be listed in this way and others kept.
-/

namespace SchemaRecords.Schema

/-- A map field as a list of the messages that its entries are. -/
def Field.listed? (relocation : Relocation) (field : Field) : Option Field :=
  match field.shape with
  | .map id => some { field with shape := .repeated (.message (relocation.message id)) false }
  | _ => none

/-- A field is kept in a variant, or it is a map which is listed there. -/
def Field.Listed (relocation : Relocation) (field other : Field) : Prop :=
  other = field.relocate relocation ∨ field.listed? relocation = some other

instance (relocation : Relocation) (field other : Field) :
    Decidable (field.Listed relocation other) :=
  inferInstanceAs (Decidable (other = field.relocate relocation ∨
    field.listed? relocation = some other))

/-- A message of a variant, with the same fields up to the maps that are listed. -/
structure Message.Listed (relocation : Relocation) (message other : Message) : Prop where
  fields : List.Forall₂ (Field.Listed relocation) message.fields other.fields
  named : message.isMapEntry = false →
    other.isMapEntry = false ∧ other.fullName = message.fullName

/-- A variant of a pool, in which some maps are listed. -/
structure Pool.Listed (relocation : Relocation) (pool variant : Pool) : Prop where
  message : ∀ message ∈ pool.messages, ∃ other,
    variant.message? (relocation.message message.id) = some other ∧
      message.Listed relocation other
  enumerations : pool.EmbedsEnumerations relocation variant

variable {relocation : Relocation}

/-! ## Fields -/

namespace Field.Listed

variable {field other : Field}

theorem eq_of_listed? (same : field.listed? relocation = some other) :
    ∃ id, field.shape = .map id ∧
      other = { field with shape := .repeated (.message (relocation.message id)) false } := by
  unfold Field.listed? at same
  split at same
  · rename_i id shape
    exact ⟨id, shape, (Option.some.inj same).symm⟩
  · cases same

theorem name (listed : field.Listed relocation other) : other.name = field.name := by
  rcases listed with rfl | same
  · rfl
  · rcases eq_of_listed? same with ⟨_, _, rfl⟩
    rfl

theorem jsonName (listed : field.Listed relocation other) : other.jsonName = field.jsonName := by
  rcases listed with rfl | same
  · rfl
  · rcases eq_of_listed? same with ⟨_, _, rfl⟩
    rfl

theorem number (listed : field.Listed relocation other) : other.number = field.number := by
  rcases listed with rfl | same
  · rfl
  · rcases eq_of_listed? same with ⟨_, _, rfl⟩
    rfl

theorem oneof (listed : field.Listed relocation other) : other.oneof = field.oneof := by
  rcases listed with rfl | same
  · rfl
  · rcases eq_of_listed? same with ⟨_, _, rfl⟩
    rfl

/-- Only maps are listed. -/
theorem eq_relocate (listed : field.Listed relocation other) (notMap : field.isMap = false) :
    other = field.relocate relocation := by
  rcases listed with same | same
  · exact same
  · rcases eq_of_listed? same with ⟨_, shape, _⟩
    rw [Field.isMap, shape] at notMap
    cases notMap

end Field.Listed

/-! ## Messages -/

namespace Message.Listed

variable {message other : Message}

/-- The message that a list has in place of an entry has the same key and value. -/
theorem entryFields (listed : message.Listed relocation other) {key : Scalar} {type : ValueType}
    (fields : message.fields = [.entryKey key, .entryValue type]) :
    other.fields = [.entryKey key, .entryValue (type.relocate relocation)] := by
  have each := listed.fields
  rw [fields] at each
  cases isOther : other.fields with
  | nil =>
    rw [isOther] at each
    cases each
  | cons first rest =>
    rw [isOther] at each
    cases each with
    | cons keyListed restListed =>
      cases restListed with
      | cons valueListed noneListed =>
        cases noneListed
        rw [keyListed.eq_relocate rfl, valueListed.eq_relocate rfl]
        rfl

end Message.Listed

/-! ## Pools -/

namespace Pool.Listed

variable {pool variant : Pool}

theorem exists_message (listed : pool.Listed relocation variant) (wellFormed : pool.WellFormed)
    {id : MessageId} {message : Message} (found : pool.message? id = some message) :
    ∃ other, variant.message? (relocation.message id) = some other ∧
      message.Listed relocation other := by
  have place := wellFormed.places id message found
  exact place ▸ listed.message message (List.mem_of_getElem? found)

/-- A name leads to the same message in a variant. -/
theorem exists_findMessage? (listed : pool.Listed relocation variant)
    (wellFormed : pool.WellFormed) (variantWellFormed : variant.WellFormed) {name : String}
    {id : MessageId} {message : Message} (found : pool.findMessage? name = some message)
    (there : pool.message? id = some message) (notEntry : message.isMapEntry = false) :
    ∃ other, variant.findMessage? name = some other ∧
      variant.message? (relocation.message id) = some other ∧
      message.Listed relocation other := by
  rcases listed.exists_message wellFormed there with ⟨other, otherThere, isListed⟩
  rcases isListed.named notEntry with ⟨otherNotEntry, fullName⟩
  have named : variant.symbols.find? (withoutLeadingDot name) =
      some (.message (relocation.message id)) := by
    apply (variantWellFormed.symbols _ _).mpr
    exact ⟨other, otherThere, fullName.trans (wellFormed.fullName_of_findMessage? found),
      otherNotEntry⟩
  refine ⟨other, ?_, otherThere, isListed⟩
  simp only [Pool.findMessage?, named, otherThere]

end Pool.Listed
end SchemaRecords.Schema
