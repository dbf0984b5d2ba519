import SchemaRecords.Proofs.Schema.WellFormed

/-!
# Relocating descriptors

Descriptors refer to each other by their places, and the places that the descriptors of a unit
have depend on what was registered before.  A relocation gives other places to descriptors.  It
changes nothing in them but their references.

A pool is embedded in another one if whatever it holds stands there at its new place, and all
names still lead to it.  A pool is embedded in every pool that extends it, each place staying
what it is.
-/

namespace SchemaRecords.Schema

/-- Other places for messages, enumerations and units. -/
structure Relocation where
  message : MessageId → MessageId
  enumeration : EnumerationId → EnumerationId
  unit : UnitId → UnitId

namespace Relocation

/-- Everything stays where it is. -/
def identity : Relocation := ⟨id, id, id⟩

/-- One relocation after another. -/
def after (second first : Relocation) : Relocation :=
  ⟨second.message ∘ first.message, second.enumeration ∘ first.enumeration,
    second.unit ∘ first.unit⟩

/-- No two places become the same. -/
structure Injective (relocation : Relocation) : Prop where
  message : Function.Injective relocation.message
  enumeration : Function.Injective relocation.enumeration
  unit : Function.Injective relocation.unit

/-- Two relocations that give the same places to what a pool holds. -/
structure AgreeOn (pool : Pool) (first second : Relocation) : Prop where
  message : ∀ id message, pool.message? id = some message → first.message id = second.message id
  enumeration : ∀ id enumeration, pool.enumeration? id = some enumeration →
    first.enumeration id = second.enumeration id
  unit : ∀ id unit, pool.unitAt? id = some unit → first.unit id = second.unit id

end Relocation

/-! ## Relocated descriptors -/

variable (relocation : Relocation)

/-- What a name stands for once places have changed. -/
def Symbol.relocate : Symbol → Symbol
  | .message id => .message (relocation.message id)
  | .enumeration id => .enumeration (relocation.enumeration id)

/-- A type once places have changed. -/
def ValueType.relocate : ValueType → ValueType
  | .scalar type => .scalar type
  | .message id => .message (relocation.message id)
  | .enumeration id => .enumeration (relocation.enumeration id)

/-- A shape once places have changed. -/
def Shape.relocate : Shape → Shape
  | .singular type explicit => .singular (type.relocate relocation) explicit
  | .repeated type packed => .repeated (type.relocate relocation) packed
  | .map entry => .map (relocation.message entry)

/-- A field once places have changed. -/
def Field.relocate (field : Field) : Field :=
  { field with shape := field.shape.relocate relocation }

/-- A message once places have changed. -/
def Message.relocate (message : Message) : Message :=
  { message with
    id := relocation.message message.id
    unit := relocation.unit message.unit
    parent := message.parent.map relocation.message
    fields := message.fields.map (·.relocate relocation)
    nestedMessages := message.nestedMessages.map relocation.message
    nestedEnumerations := message.nestedEnumerations.map relocation.enumeration }

/-- An enumeration once places have changed. -/
def Enumeration.relocate (enumeration : Enumeration) : Enumeration :=
  { enumeration with unit := relocation.unit enumeration.unit }

/-- A unit once places have changed. -/
def SchemaUnit.relocate (unit : SchemaUnit) : SchemaUnit :=
  { unit with
    dependencies := unit.dependencies.map relocation.unit
    publicDependencies := unit.publicDependencies.map relocation.unit
    messages := unit.messages.map relocation.message
    enumerations := unit.enumerations.map relocation.enumeration }

/-! ## What stays the same -/

variable {relocation}

@[simp] theorem Symbol.type_relocate (symbol : Symbol) :
    (symbol.relocate relocation).type = symbol.type.relocate relocation := by
  cases symbol <;> rfl

namespace ValueType

@[simp] theorem keyword_relocate (type : ValueType) :
    (type.relocate relocation).keyword = type.keyword := by
  cases type <;> rfl

@[simp] theorem layout_relocate (type : ValueType) :
    (type.relocate relocation).layout = type.layout := by
  cases type <;> rfl

@[simp] theorem isPackable_relocate (type : ValueType) :
    (type.relocate relocation).isPackable = type.isPackable := by
  cases type <;> rfl

@[simp] theorem isMessage_relocate (type : ValueType) :
    (type.relocate relocation).isMessage = type.isMessage := by
  cases type <;> rfl

end ValueType

@[simp] theorem Shape.type_relocate (shape : Shape) :
    (shape.relocate relocation).type = shape.type.relocate relocation := by
  cases shape <;> rfl

namespace Field

@[simp] theorem name_relocate (field : Field) : (field.relocate relocation).name = field.name := rfl

@[simp] theorem jsonName_relocate (field : Field) :
    (field.relocate relocation).jsonName = field.jsonName := rfl

@[simp] theorem number_relocate (field : Field) :
    (field.relocate relocation).number = field.number := rfl

@[simp] theorem shape_relocate (field : Field) :
    (field.relocate relocation).shape = field.shape.relocate relocation := rfl

theorem shape_relocate_of {field : Field} {shape : Shape} (same : field.shape = shape) :
    (field.relocate relocation).shape = shape.relocate relocation :=
  congrArg (Shape.relocate relocation) same

@[simp] theorem oneof_relocate (field : Field) :
    (field.relocate relocation).oneof = field.oneof := rfl

@[simp] theorem type_relocate (field : Field) :
    (field.relocate relocation).type = field.type.relocate relocation :=
  field.shape.type_relocate

@[simp] theorem hasPresence_relocate (field : Field) :
    (field.relocate relocation).hasPresence = field.hasPresence := by
  rw [hasPresence, hasPresence, shape_relocate, oneof_relocate]
  cases field.shape with
  | singular type explicit => simp only [Shape.relocate, ValueType.isMessage_relocate]
  | _ => rfl

end Field

namespace Message

@[simp] theorem fullName_relocate (message : Message) :
    (message.relocate relocation).fullName = message.fullName := rfl

@[simp] theorem fields_relocate (message : Message) :
    (message.relocate relocation).fields = message.fields.map (·.relocate relocation) := rfl

@[simp] theorem nestedMessages_relocate (message : Message) :
    (message.relocate relocation).nestedMessages =
      message.nestedMessages.map relocation.message := rfl

theorem fieldByNumber?_relocate (message : Message) (number : Nat) :
    (message.relocate relocation).fieldByNumber? number =
      (message.fieldByNumber? number).map (·.relocate relocation) := by
  simp only [fieldByNumber?, relocate, List.getElem?_map, Option.map_bind]
  rfl

theorem fieldByName?_relocate (message : Message) (name : String) :
    (message.relocate relocation).fieldByName? name =
      (message.fieldByName? name).map (·.relocate relocation) := by
  have byJson : ((message.fields.map (·.relocate relocation)).find?
      fun field => field.jsonName = name) =
      (message.fields.find? fun field => field.jsonName = name).map (·.relocate relocation) :=
    List.find?_map
  simp only [fieldByName?, relocate, List.getElem?_map, byJson, Option.map_or, Option.map_bind]
  rfl

theorem membersOf_relocate (message : Message) (oneof : Oneof) :
    (message.relocate relocation).membersOf oneof =
      (message.membersOf oneof).map (·.relocate relocation) := by
  simp only [membersOf, relocate, List.getElem?_map, List.map_filterMap]

end Message

/-! ## Relocating twice, and not at all -/

section Composition

variable {second first : Relocation}

@[simp] theorem Symbol.relocate_relocate (symbol : Symbol) :
    (symbol.relocate first).relocate second = symbol.relocate (second.after first) := by
  cases symbol <;> rfl

@[simp] theorem ValueType.relocate_relocate (type : ValueType) :
    (type.relocate first).relocate second = type.relocate (second.after first) := by
  cases type <;> rfl

@[simp] theorem Shape.relocate_relocate (shape : Shape) :
    (shape.relocate first).relocate second = shape.relocate (second.after first) := by
  cases shape with
  | map entry => rfl
  | _ => simp only [Shape.relocate, ValueType.relocate_relocate]

@[simp] theorem Field.relocate_relocate (field : Field) :
    (field.relocate first).relocate second = field.relocate (second.after first) := by
  rcases field with ⟨name, jsonName, number, shape, oneof⟩
  simp only [Field.relocate, Shape.relocate_relocate]

@[simp] theorem Message.relocate_relocate (message : Message) :
    (message.relocate first).relocate second = message.relocate (second.after first) := by
  simp only [Message.relocate, List.map_map, Option.map_map, Function.comp_def,
    Field.relocate_relocate, Relocation.after]

@[simp] theorem Enumeration.relocate_relocate (enumeration : Enumeration) :
    (enumeration.relocate first).relocate second = enumeration.relocate (second.after first) := rfl

@[simp] theorem SchemaUnit.relocate_relocate (unit : SchemaUnit) :
    (unit.relocate first).relocate second = unit.relocate (second.after first) := by
  simp only [SchemaUnit.relocate, List.map_map, Relocation.after]

@[simp] theorem Symbol.relocate_identity (symbol : Symbol) :
    symbol.relocate .identity = symbol := by
  cases symbol <;> rfl

@[simp] theorem ValueType.relocate_identity (type : ValueType) :
    type.relocate .identity = type := by
  cases type <;> rfl

@[simp] theorem Shape.relocate_identity (shape : Shape) : shape.relocate .identity = shape := by
  cases shape with
  | map entry => rfl
  | _ => simp only [Shape.relocate, ValueType.relocate_identity]

@[simp] theorem Field.relocate_identity (field : Field) : field.relocate .identity = field := by
  rcases field with ⟨name, jsonName, number, shape, oneof⟩
  simp only [Field.relocate, Shape.relocate_identity]

@[simp] theorem Message.relocate_identity (message : Message) :
    message.relocate .identity = message := by
  simp only [Message.relocate, Field.relocate_identity, List.map_id']
  simp only [Relocation.identity, Option.map_id_fun, List.map_id_fun, id_eq]

@[simp] theorem Enumeration.relocate_identity (enumeration : Enumeration) :
    enumeration.relocate .identity = enumeration := rfl

@[simp] theorem SchemaUnit.relocate_identity (unit : SchemaUnit) :
    unit.relocate .identity = unit := by
  simp only [SchemaUnit.relocate, Relocation.identity, List.map_id_fun, id_eq]

end Composition

/-! ## Relocations that agree -/

section Agreement

variable {pool : Pool} {first second : Relocation} (agree : Relocation.AgreeOn pool first second)
include agree

theorem Pool.relocate_type {type : ValueType} (known : pool.HasType type) :
    type.relocate first = type.relocate second := by
  cases type with
  | scalar scalar => rfl
  | message id =>
    rcases known with ⟨message, found⟩
    exact congrArg ValueType.message (agree.message id message found)
  | enumeration id =>
    rcases known with ⟨enumeration, found⟩
    exact congrArg ValueType.enumeration (agree.enumeration id enumeration found)

theorem Pool.relocate_symbol {fullName : String} {symbol : Symbol}
    (named : pool.Names fullName symbol) : symbol.relocate first = symbol.relocate second := by
  cases symbol with
  | message id =>
    rcases named with ⟨message, found, _⟩
    exact congrArg Symbol.message (agree.message id message found)
  | enumeration id =>
    rcases named with ⟨enumeration, found, _⟩
    exact congrArg Symbol.enumeration (agree.enumeration id enumeration found)

theorem Pool.relocate_shape {shape : Shape} (known : pool.HasType shape.type) :
    shape.relocate first = shape.relocate second := by
  cases shape with
  | singular type explicit =>
    exact congrArg (Shape.singular · explicit) (relocate_type agree known)
  | repeated type packed => exact congrArg (Shape.repeated · packed) (relocate_type agree known)
  | map entry =>
    rcases known with ⟨message, found⟩
    exact congrArg Shape.map (agree.message entry message found)

theorem Message.WellFormed.relocate_field {message : Message} (wellFormed : message.WellFormed pool)
    {field : Field} (member : field ∈ message.fields) :
    field.relocate first = field.relocate second := by
  simp only [Field.relocate, Pool.relocate_shape agree (wellFormed.types field member)]

/-- A message refers to nothing outside of its pool. -/
theorem Pool.WellFormed.relocate_message (wellFormed : pool.WellFormed) {id : MessageId}
    {message : Message} (found : pool.message? id = some message) :
    message.relocate first = message.relocate second := by
  have facts := wellFormed.messages message (List.mem_of_getElem? found)
  have itself : first.message message.id = second.message message.id := by
    rw [wellFormed.places id message found]
    exact agree.message id message found
  have unit : first.unit message.unit = second.unit message.unit := by
    rcases facts.unit with ⟨unit, there⟩
    exact agree.unit _ unit there
  have parent : message.parent.map first.message = message.parent.map second.message := by
    cases isParent : message.parent with
    | none => rfl
    | some outer =>
      rcases facts.parent outer isParent with ⟨_, outerMessage, there, _⟩
      exact congrArg some (agree.message outer outerMessage there)
  have fields : message.fields.map (·.relocate first) = message.fields.map (·.relocate second) :=
    List.map_congr_left fun field member => facts.relocate_field agree member
  have messages : message.nestedMessages.map first.message =
      message.nestedMessages.map second.message := by
    apply List.map_congr_left
    intro inner member
    rcases facts.nested inner member with ⟨nested, there, _⟩
    exact agree.message inner nested there
  have enumerations : message.nestedEnumerations.map first.enumeration =
      message.nestedEnumerations.map second.enumeration := by
    apply List.map_congr_left
    intro inner member
    rcases facts.nestedEnumerations inner member with ⟨nested, there⟩
    exact agree.enumeration inner nested there
  simp only [Message.relocate, itself, unit, parent, fields, messages, enumerations]

theorem Pool.WellFormed.relocate_enumeration (wellFormed : pool.WellFormed) {id : EnumerationId}
    {enumeration : Enumeration} (found : pool.enumeration? id = some enumeration) :
    enumeration.relocate first = enumeration.relocate second := by
  rcases (wellFormed.enumerations enumeration (List.mem_of_getElem? found)).unit with ⟨unit, there⟩
  simp only [Enumeration.relocate, agree.unit _ unit there]

theorem Pool.WellFormed.relocate_unit (wellFormed : pool.WellFormed) {id : UnitId}
    {unit : SchemaUnit} (found : pool.unitAt? id = some unit) :
    unit.relocate first = unit.relocate second := by
  have facts := wellFormed.units id unit found
  have units (ids : List UnitId) (taken : ∀ id ∈ ids, ∃ unit, pool.unitAt? id = some unit) :
      ids.map first.unit = ids.map second.unit := by
    apply List.map_congr_left
    intro id member
    rcases taken id member with ⟨unit, there⟩
    exact agree.unit id unit there
  have messages : unit.messages.map first.message = unit.messages.map second.message := by
    apply List.map_congr_left
    intro root member
    rcases facts.messages root member with ⟨message, there, _⟩
    exact agree.message root message there
  have enumerations : unit.enumerations.map first.enumeration =
      unit.enumerations.map second.enumeration := by
    apply List.map_congr_left
    intro root member
    rcases facts.enumerations root member with ⟨enumeration, there, _⟩
    exact agree.enumeration root enumeration there
  simp only [SchemaUnit.relocate, units _ facts.dependencies, units _ facts.publicDependencies,
    messages, enumerations]

end Agreement

/-! ## Embedded pools -/

/-- Whatever enumerations a pool holds, another pool holds them at their new places. -/
def Pool.EmbedsEnumerations (relocation : Relocation) (pool grown : Pool) : Prop :=
  ∀ id enumeration, pool.enumeration? id = some enumeration →
    grown.enumeration? (relocation.enumeration id) = some (enumeration.relocate relocation)

/-- Whatever a pool holds, another pool holds it at its new place and under its name. -/
structure Pool.Embeds (relocation : Relocation) (pool grown : Pool) : Prop where
  message : ∀ id message, pool.message? id = some message →
    grown.message? (relocation.message id) = some (message.relocate relocation)
  enumeration : ∀ id enumeration, pool.enumeration? id = some enumeration →
    grown.enumeration? (relocation.enumeration id) = some (enumeration.relocate relocation)
  unit : ∀ id unit, pool.unitAt? id = some unit →
    grown.unitAt? (relocation.unit id) = some (unit.relocate relocation)
  symbol : ∀ name symbol, pool.symbols.find? name = some symbol →
    grown.symbols.find? name = some (symbol.relocate relocation)
  unitName : ∀ name id, pool.unitsByName.find? name = some id →
    grown.unitsByName.find? name = some (relocation.unit id)

namespace Pool

variable {pool grown : Pool}

theorem Extends.embeds (kept : grown.Extends pool) : Embeds .identity pool grown where
  message := by
    intro id message found
    rw [Message.relocate_identity]
    exact kept.message id message found
  enumeration := kept.enumeration
  unit := by
    intro id unit found
    rw [SchemaUnit.relocate_identity]
    exact kept.unit id unit found
  symbol := by
    intro name symbol found
    rw [Symbol.relocate_identity]
    exact kept.symbol name symbol found
  unitName := kept.unitName

/-- What a relocation does to places that are not taken does not matter. -/
theorem Embeds.congr {first second : Relocation} (embeds : Embeds first pool grown)
    (wellFormed : pool.WellFormed) (agree : Relocation.AgreeOn pool second first) :
    Embeds second pool grown where
  message := by
    intro id message found
    rw [agree.message id message found, wellFormed.relocate_message agree found]
    exact embeds.message id message found
  enumeration := by
    intro id enumeration found
    rw [agree.enumeration id enumeration found, wellFormed.relocate_enumeration agree found]
    exact embeds.enumeration id enumeration found
  unit := by
    intro id unit found
    rw [agree.unit id unit found, wellFormed.relocate_unit agree found]
    exact embeds.unit id unit found
  symbol := by
    intro name symbol found
    rw [relocate_symbol agree ((wellFormed.symbols name symbol).mp found)]
    exact embeds.symbol name symbol found
  unitName := by
    intro name id found
    rcases (wellFormed.unitsByName name id).mp found with ⟨unit, there, _⟩
    rw [agree.unit id unit there]
    exact embeds.unitName name id found

namespace Embeds

variable (embeds : Embeds relocation pool grown)
include embeds

theorem findMessage? {name : String} {message : Message}
    (found : pool.findMessage? name = some message) :
    grown.findMessage? name = some (message.relocate relocation) := by
  unfold Pool.findMessage? at found ⊢
  split at found
  · rename_i id named
    rw [embeds.symbol _ _ named]
    exact embeds.message id message found
  · cases found

theorem findEnumeration? {name : String} {enumeration : Enumeration}
    (found : pool.findEnumeration? name = some enumeration) :
    grown.findEnumeration? name = some (enumeration.relocate relocation) := by
  unfold Pool.findEnumeration? at found ⊢
  split at found
  · rename_i id named
    rw [embeds.symbol _ _ named]
    exact embeds.enumeration id enumeration found
  · cases found

theorem unit? {name : String} {unit : SchemaUnit} (found : pool.unit? name = some unit) :
    grown.unit? name = some (unit.relocate relocation) := by
  rcases Option.bind_eq_some_iff.mp found with ⟨id, named, there⟩
  exact Option.bind_eq_some_iff.mpr
    ⟨relocation.unit id, embeds.unitName name id named, embeds.unit id unit there⟩

end Embeds
end Pool
end SchemaRecords.Schema
