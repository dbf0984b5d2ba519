import SchemaRecords.Schema.Descriptor

/-!
# Pools of descriptors

A pool holds the descriptors of all units that have been registered, in the order of
registration, and two tables: one from the names of units to their places, one from
full names to the messages and enumerations that go by them.  The entries of map fields
are in no table.

A pool only grows.  Registering a unit appends its descriptors, whose names are new, and
so no look-up that succeeded before changes its answer.
-/

namespace SchemaRecords.Schema

/-- The descriptors of the registered units. -/
structure Pool where
  units : List SchemaUnit
  messages : List Message
  enumerations : List Enumeration
  unitsByName : Table String UnitId
  symbols : Table String Symbol
  deriving DecidableEq, Repr

namespace Pool

/-- The pool before any registration. -/
def empty : Pool := ⟨[], [], [], .empty, .empty⟩

/-! ## Following references -/

/-- The message at a place. -/
def message? (pool : Pool) (id : MessageId) : Option Message := pool.messages[id.index]?

/-- The enumeration at a place. -/
def enumeration? (pool : Pool) (id : EnumerationId) : Option Enumeration :=
  pool.enumerations[id.index]?

/-- The unit at a place. -/
def unitAt? (pool : Pool) (id : UnitId) : Option SchemaUnit := pool.units[id.index]?

/-- The unit that declares what a symbol stands for. -/
def unitOf? (pool : Pool) : Symbol → Option UnitId
  | .message id => (pool.message? id).map (·.unit)
  | .enumeration id => (pool.enumeration? id).map (·.unit)

/-! ## Looking up names -/

/-- The unit of a name. -/
def unit? (pool : Pool) (name : String) : Option SchemaUnit :=
  (pool.unitsByName.find? name).bind pool.unitAt?

/-- A name without the dot that may stand in front of it. -/
def withoutLeadingDot (name : String) : String :=
  match name.toList with
  | '.' :: rest => String.ofList rest
  | _ => name

/-- The message that a user names, with or without a leading dot. -/
def findMessage? (pool : Pool) (name : String) : Option Message :=
  match pool.symbols.find? (withoutLeadingDot name) with
  | some (.message id) => pool.message? id
  | _ => none

/-- The enumeration that a user names, with or without a leading dot. -/
def findEnumeration? (pool : Pool) (name : String) : Option Enumeration :=
  match pool.symbols.find? (withoutLeadingDot name) with
  | some (.enumeration id) => pool.enumeration? id
  | _ => none

/-- The messages that a unit declares outside of any message. -/
def messagesIn? (pool : Pool) (unitName : String) : Option (List Message) :=
  (pool.unit? unitName).map fun unit => unit.messages.filterMap pool.message?

end Pool

/-! ## Growing -/

/-- A unit ready to be registered: its descriptors, which already refer to each other
by the places that they will have, and the full names that it declares. -/
structure LinkedUnit where
  unit : SchemaUnit
  messages : List Message
  enumerations : List Enumeration
  symbols : List (String × Symbol)
  deriving DecidableEq, Repr

/-- Add the descriptors of a unit. -/
def Pool.commit (pool : Pool) (linked : LinkedUnit) : Pool where
  units := pool.units ++ [linked.unit]
  messages := pool.messages ++ linked.messages
  enumerations := pool.enumerations ++ linked.enumerations
  unitsByName := pool.unitsByName.insert linked.unit.name ⟨pool.units.length⟩
  symbols := pool.symbols.insertAll linked.symbols

end SchemaRecords.Schema
