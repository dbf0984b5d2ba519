import SchemaRecords.Proofs.Schema.RegularMessages

/-!
# Kinds of fields

In a well-formed pool there are four kinds of fields: single values, single messages, repeated
values and maps.  What is said about the fields of a message is said about each kind in turn, and
the messages that a field refers to are those that one reaches through it.
-/

namespace SchemaRecords.Schema

/-- A field of a message in a well-formed pool, by its shape. -/
inductive Pool.FieldKind (pool : Pool) (field : Field) : Prop
  | simple {type : ValueType} {explicit : Bool} (shape : field.shape = .singular type explicit)
      (notMessage : type.isMessage = false) (known : pool.Nameable type) : FieldKind pool field
  | message {id : MessageId} {explicit : Bool} {next : Message}
      (shape : field.shape = .singular (.message id) explicit)
      (found : pool.message? id = some next) (notEntry : next.isMapEntry = false) :
      FieldKind pool field
  | repeated {type : ValueType} {packed : Bool} (shape : field.shape = .repeated type packed)
      (packable : packed = true → type.isPackable = true) (known : pool.Nameable type) :
      FieldKind pool field
  | map {id : MessageId} {entry : Message} {key : Scalar} {type : ValueType}
      (shape : field.shape = .map id) (found : pool.message? id = some entry)
      (fields : entry.fields = [.entryKey key, .entryValue type]) (legal : key.isMapKey = true)
      (known : pool.Nameable type) : FieldKind pool field

variable {pool : Pool} {message : Message} {field : Field}

theorem Field.type_of_shape {shape : Shape} (same : field.shape = shape) :
    field.type = shape.type := by
  rw [Field.type, same]

theorem Pool.WellFormed.fieldKind (wellFormed : pool.WellFormed) (there : message ∈ pool.messages)
    (member : field ∈ message.fields) : pool.FieldKind field := by
  have facts := wellFormed.messages message there
  cases shape : field.shape with
  | singular type explicit =>
    have notMap : field.isMap = false := by rw [Field.isMap, shape]
    have known := facts.nameable field member notMap
    rw [Field.type_of_shape shape, Shape.type] at known
    cases type with
    | message id =>
      rcases known with ⟨next, found, notEntry⟩
      exact .message shape found notEntry
    | scalar scalar => exact .simple shape rfl known
    | enumeration id => exact .simple shape rfl known
  | repeated type packed =>
    have notMap : field.isMap = false := by rw [Field.isMap, shape]
    have known := facts.nameable field member notMap
    rw [Field.type_of_shape shape, Shape.type] at known
    exact .repeated shape (fun isPacked => facts.packable field member type (isPacked ▸ shape)) known
  | map id =>
    rcases facts.entries field member id shape with ⟨entry, found, _, key, type, legal, fields⟩
    have isValue : Field.entryValue type ∈ entry.fields := by
      rw [fields]
      exact List.mem_cons_of_mem _ List.mem_cons_self
    have known := (wellFormed.messages entry (List.mem_of_getElem? found)).nameable _ isValue rfl
    exact .map shape found fields legal known

/-- The message of a field is reached through it. -/
theorem Pool.Reaches.of_shape {shape : Shape} {id : MessageId} {next : Message}
    (member : field ∈ message.fields) (same : field.shape = shape) (type : shape.type = .message id)
    (found : pool.message? id = some next) : pool.Reaches message next :=
  .step .refl member ((Field.type_of_shape same).trans type) found

/-- The message in the entries of a map is reached through the map. -/
theorem Pool.Reaches.of_map {id inner : MessageId} {entry next : Message} {key : Scalar}
    (member : field ∈ message.fields) (shape : field.shape = .map id)
    (found : pool.message? id = some entry)
    (fields : entry.fields = [.entryKey key, .entryValue (.message inner)])
    (innerFound : pool.message? inner = some next) : pool.Reaches message next := by
  have isValue : Field.entryValue (.message inner) ∈ entry.fields := by
    rw [fields]
    exact List.mem_cons_of_mem _ List.mem_cons_self
  exact .step (.of_shape member shape rfl found) isValue rfl innerFound

end SchemaRecords.Schema
