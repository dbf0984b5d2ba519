import SchemaRecords.Proofs.Schema.GivenCharacters
import SchemaRecords.Proofs.Schema.LinkedUnits

/-!
# Messages without surprises

A document and a payload say the same only where a value has one form in each of them.  There
are three kinds of schemas in which it does not: floating-point numbers are rounded, an
enumeration that uses a name twice cannot be read back by that name, and where the first
number of an enumeration is not zero the two sides do not agree on which value may be left
out.  A message is regular if none of this can be reached from it.
-/

namespace SchemaRecords.Schema

/-- The messages that can be reached from a message through the types of fields. -/
inductive Pool.Reaches (pool : Pool) (root : Message) : Message → Prop
  | refl : pool.Reaches root root
  | step {message next : Message} {field : Field} {id : MessageId}
      (earlier : pool.Reaches root message) (member : field ∈ message.fields)
      (type : field.type = .message id) (found : pool.message? id = some next) :
      pool.Reaches root next

/-- No floating-point number can be reached, every enumeration uses distinct names, and the
first number of an enumeration is zero where a field leaves it out. -/
structure Pool.Regular (pool : Pool) (root : Message) : Prop where
  noFloats : ∀ message, pool.Reaches root message → ∀ field ∈ message.fields,
    field.type ≠ .scalar .float ∧ field.type ≠ .scalar .double
  namesDistinct : ∀ message, pool.Reaches root message → ∀ field ∈ message.fields,
    ∀ id enumeration, field.type = .enumeration id → pool.enumeration? id = some enumeration →
      (enumeration.values.map (·.name)).Nodup
  zeroFirst : ∀ message, pool.Reaches root message → message.isMapEntry = false →
    ∀ field ∈ message.fields, ∀ id explicit enumeration,
      field.shape = .singular (.enumeration id) explicit → field.hasPresence = false →
      pool.enumeration? id = some enumeration → enumeration.defaultNumber = 0

theorem Pool.Reaches.trans {pool : Pool} {root middle message : Message}
    (first : pool.Reaches root middle) (second : pool.Reaches middle message) :
    pool.Reaches root message := by
  induction second with
  | refl => exact first
  | step _ member type found reached => exact .step reached member type found

theorem Pool.Reaches.mem_messages {pool : Pool} {root message : Message}
    (reached : pool.Reaches root message) (member : root ∈ pool.messages) :
    message ∈ pool.messages := by
  cases reached with
  | refl => exact member
  | step _ _ _ found => exact List.mem_of_getElem? found

/-- What is reached from a regular message is regular. -/
theorem Pool.Regular.of_reaches {pool : Pool} {root message : Message} (regular : pool.Regular root)
    (reached : pool.Reaches root message) : pool.Regular message where
  noFloats := fun next further => regular.noFloats next (reached.trans further)
  namesDistinct := fun next further => regular.namesDistinct next (reached.trans further)
  zeroFirst := fun next further => regular.zeroFirst next (reached.trans further)

theorem Pool.Regular.next {pool : Pool} {message next : Message} (regular : pool.Regular message)
    {field : Field} (member : field ∈ message.fields) {id : MessageId}
    (type : field.type = .message id) (found : pool.message? id = some next) :
    pool.Regular next :=
  regular.of_reaches (.step .refl member type found)

/-- Where no message has a floating-point field and every enumeration has distinct names and
starts at zero, all messages are regular. -/
theorem Pool.regular_of_forall {pool : Pool}
    (fields : ∀ message ∈ pool.messages, ∀ field ∈ message.fields,
      field.type ≠ .scalar .float ∧ field.type ≠ .scalar .double)
    (enumerations : ∀ enumeration ∈ pool.enumerations,
      (enumeration.values.map (·.name)).Nodup ∧ enumeration.defaultNumber = 0)
    {root : Message} (member : root ∈ pool.messages) : pool.Regular root := by
  constructor
  · intro message reached
    exact fields message (reached.mem_messages member)
  · intro message reached field _ id enumeration _ found
    exact (enumerations enumeration (List.mem_of_getElem? found)).1
  · intro message reached _ field _ id explicit enumeration _ _ found
    exact (enumerations enumeration (List.mem_of_getElem? found)).2

/-- A schema with a message that refers to itself through a map. -/
def nodeAttempts : List (String × String) :=
  [("node.proto", "message Node\x7brepeated int32 marks=1;map<int32,Node> links=2;optional string name=3;\x7d")]

theorem regular_of_nodeAttempts {name : String} {message : Message}
    (found : (Pool.registerAll nodeAttempts).findMessage? name = some message) :
    (Pool.registerAll nodeAttempts).Regular message := by
  rcases (Pool.wellFormed_registerAll nodeAttempts).exists_of_findMessage? found with ⟨id, there, _⟩
  apply Pool.regular_of_forall _ _ (List.mem_of_getElem? there)
  · rw [nodeAttempts, Pool.registerAll_ofList]
    decide +kernel
  · rw [nodeAttempts, Pool.registerAll_ofList]
    decide +kernel

end SchemaRecords.Schema
