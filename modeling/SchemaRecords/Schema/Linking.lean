import SchemaRecords.Schema.Outline
import SchemaRecords.Schema.Scope

/-!
# Linking

Linking turns the declarations of one unit into descriptors.  Three things are
checked, each throughout the unit before the next: that every import is registered,
that every declaration has a new name and every enumeration a value, and that the
fields of every message are well numbered, well named and of known types.  The first
fault found is the one reported.

The messages of a unit take the places behind those of the pool in the order of its
outline, and behind all of them come the entries of its map fields, in the order of the
fields.

A cause may point at the place of a field.  How places are given is a parameter, so
that two causes can be compared with their places left out.
-/

namespace SchemaRecords.Schema

/-- Field numbers end here. -/
def maxFieldNumber : Nat := 536870911

/-- Why a unit cannot be linked. -/
inductive LinkCause (Place : Type) where
  | unresolvedImport (path : String)
  | emptyEnumeration (fullName : String)
  | duplicateSymbol (fullName : String)
  | invalidNumber (scope field : String) (number : Nat) (place : Place)
  | reservedNumber (scope field : String) (number : Nat) (place : Place)
  | sharedNumber (scope : String) (number : Nat) (first second : String)
  | sharedName (scope field : String)
  | unresolvedType (field typeName : String)
  deriving DecidableEq, Repr

/-- Give the places of a cause in another way. -/
def LinkCause.map {α β : Type} (f : α → β) : LinkCause α → LinkCause β
  | .unresolvedImport path => .unresolvedImport path
  | .emptyEnumeration fullName => .emptyEnumeration fullName
  | .duplicateSymbol fullName => .duplicateSymbol fullName
  | .invalidNumber scope field number place => .invalidNumber scope field number (f place)
  | .reservedNumber scope field number place => .reservedNumber scope field number (f place)
  | .sharedNumber scope number first second => .sharedNumber scope number first second
  | .sharedName scope field => .sharedName scope field
  | .unresolvedType field typeName => .unresolvedType field typeName

/-- Without repetitions, each element where it first stands. -/
def firstOccurrences {α : Type} [DecidableEq α] (elements : List α) : List α :=
  elements.foldl
    (fun earlier element => if element ∈ earlier then earlier else earlier ++ [element]) []

/-! ## Imports and names -/

/-- The units that some imports name, and whether they are passed on. -/
def resolveImports (pool : Pool) :
    List ImportDecl → Except (LinkCause Nat) (List (UnitId × Bool))
  | [] => .ok []
  | decl :: rest =>
    match pool.unitsByName.find? decl.path with
    | none => .error (.unresolvedImport decl.path)
    | some id => (resolveImports pool rest).map ((id, decl.isPublic) :: ·)

/-- Whether a pool declares a full name. -/
def Pool.declares (pool : Pool) (fullName : String) : Bool :=
  (pool.symbols.find? fullName).isSome

/-- Every declaration has a name of its own, and every enumeration a value. -/
def checkOutline (pool : Pool) (earlier : List String) :
    List Outlined → Except (LinkCause Nat) Unit
  | [] => .ok ()
  | item :: rest =>
    match item with
    | .enumeration ⟨_, fullName, ⟨_, []⟩⟩ => .error (.emptyEnumeration fullName)
    | _ =>
      if item.fullName ∈ earlier ∨ pool.declares item.fullName then
        .error (.duplicateSymbol item.fullName)
      else checkOutline pool (item.fullName :: earlier) rest

/-! ## Fields -/

/-- A field number is in range and not set apart for the format itself. -/
def checkNumber (scope : String) (decl : FieldDecl) : Except (LinkCause Nat) Unit :=
  if decl.number = 0 ∨ maxFieldNumber < decl.number then
    .error (.invalidNumber scope decl.name decl.number decl.place)
  else if 19000 ≤ decl.number ∧ decl.number ≤ 19999 then
    .error (.reservedNumber scope decl.name decl.number decl.place)
  else .ok ()

/-- A field shares neither its number nor its name with an earlier one. -/
def checkDistinct (scope : String) (earlier : List Field) (decl : FieldDecl) :
    Except (LinkCause Nat) Unit :=
  match earlier.find? fun field => field.number = decl.number with
  | some other => .error (.sharedNumber scope decl.number other.name decl.name)
  | none =>
    if earlier.any fun field => field.name = decl.name then
      .error (.sharedName scope decl.name)
    else .ok ()

/-- The type that a written type means. -/
def linkType (env : Environment) (scope field : String) :
    TypeName → Except (LinkCause Nat) ValueType
  | .scalar type => .ok (.scalar type)
  | .named name =>
    match env.resolve? scope name with
    | some symbol => .ok symbol.type
    | none => .error (.unresolvedType (scope ++ "." ++ field) name)

/-- What the fields of a message are linked in: the names that can be seen, the dialect
and the unit of the text, and the message itself. -/
structure FieldContext where
  env : Environment
  dialect : Dialect
  unit : UnitId
  message : MessageId
  scope : String

/-- The entry of a map field of some name, at a place. -/
def FieldContext.entry (context : FieldContext) (id : MessageId) (field : String) (key : Scalar)
    (value : ValueType) : Message :=
  let name := upperCamelCase field ++ "Entry"
  (Message.mk id (qualify context.scope name) name context.unit (some context.message) [] [] [] []
    true .empty .empty).withFields [.entryKey key, .entryValue value] []

/-- How many values a declared field holds, and the entry it needs if it is a map, whose
place is given.  A label that asks for presence is needed in the newer dialect; in the
older one every single value has presence.  Packing is the default of the newer
dialect. -/
def linkShape (context : FieldContext) (entry : MessageId) (decl : FieldDecl) :
    Except (LinkCause Nat) (Shape × List Message) :=
  match decl.type with
  | .map key value =>
    (linkType context.env context.scope decl.name value).map fun type =>
      (.map entry, [context.entry entry decl.name key type])
  | .single name =>
    (linkType context.env context.scope decl.name name).map fun type =>
      if decl.label = .repeated then
        (.repeated type (type.isPackable && decl.packed.getD (context.dialect = .proto3)), [])
      else
        (.singular type (context.dialect = .proto2 || decl.label = .optional), [])

/-- The fields of a message after some earlier ones, and the entries of the map fields
among them.  The first place for entries is `next`, and some are taken. -/
def linkFields (context : FieldContext) (next : Nat) (earlier : List Field)
    (entries : List Message) :
    List FieldDecl → Except (LinkCause Nat) (List Field × List Message)
  | [] => .ok (earlier, entries)
  | decl :: rest => do
    checkNumber context.scope decl
    checkDistinct context.scope earlier decl
    let (shape, added) ← linkShape context ⟨next + entries.length⟩ decl
    let jsonName := decl.jsonName.getD (lowerCamelCase decl.name)
    let field := Field.mk decl.name jsonName decl.number shape decl.oneof
    linkFields context next (earlier ++ [field]) (entries ++ added) rest

/-! ## Messages and enumerations -/

/-- The descriptor of an outlined message, but for its fields. -/
def OutlinedMessage.stub (item : OutlinedMessage) (unit : UnitId) : Message where
  id := item.id
  fullName := item.fullName
  name := item.decl.name
  unit := unit
  parent := item.parent
  fields := []
  oneofs := []
  nestedMessages := item.nestedMessages
  nestedEnumerations := item.nestedEnumerations
  isMapEntry := false
  byNumber := .empty
  byName := .empty

/-- The descriptors of outlined messages, and the entries of their map fields.  The first
place for entries is `next`. -/
def linkMessages (env : Environment) (dialect : Dialect) (unit : UnitId) (next : Nat) :
    List OutlinedMessage → Except (LinkCause Nat) (List Message × List Message)
  | [] => .ok ([], [])
  | item :: rest => do
    let (fields, entries) ←
      linkFields ⟨env, dialect, unit, item.id, item.fullName⟩ next [] [] item.decl.fields
    let (messages, later) ← linkMessages env dialect unit (next + entries.length) rest
    .ok ((item.stub unit).withFields fields item.decl.oneofs :: messages, entries ++ later)

/-- The descriptor of an outlined enumeration. -/
def OutlinedEnumeration.link (item : OutlinedEnumeration) (unit : UnitId) : Enumeration :=
  ⟨item.fullName, item.decl.name, unit, item.decl.values⟩

/-! ## Units -/

/-- The next places of a pool. -/
def Pool.cursor (pool : Pool) : Cursor := ⟨pool.messages.length, pool.enumerations.length⟩

/-- The descriptor of a unit that imports some units. -/
def linkUnit (pool : Pool) (unitName : String) (imports : List (UnitId × Bool))
    (file : FileDecl) : SchemaUnit where
  name := unitName
  dialect := file.dialect
  package := file.package
  dependencies := firstOccurrences (imports.map (·.1))
  publicDependencies := firstOccurrences ((imports.filter (·.2)).map (·.1))
  messages := messageIds pool.messages.length file.messages
  enumerations := enumerationIds pool.enumerations.length file.enums

/-- What the full names of an outline stand for. -/
def outlineSymbols (outline : List Outlined) : List (String × Symbol) :=
  outline.map fun item => (item.fullName, item.symbol)

/-- What the names of a unit with some outline can refer to. -/
def linkEnvironment (pool : Pool) (unit : SchemaUnit) (outline : List Outlined) : Environment :=
  ⟨pool, .ofList (outlineSymbols outline), pool.visibleThrough unit.dependencies⟩

/-- The descriptors of a text, given those of its messages and of their entries. -/
def linkedUnit (pool : Pool) (unitName : String) (imports : List (UnitId × Bool)) (file : FileDecl)
    (messages entries : List Message) : LinkedUnit :=
  let outline := file.outline pool.cursor
  ⟨linkUnit pool unitName imports file, messages ++ entries,
    (enumerationsOf outline).map (·.link ⟨pool.units.length⟩), outlineSymbols outline⟩

/-- The descriptors of a text. -/
def link (pool : Pool) (unitName : String) (file : FileDecl) :
    Except (LinkCause Nat) LinkedUnit := do
  let imports ← resolveImports pool file.imports
  let outline := file.outline pool.cursor
  checkOutline pool [] outline
  let env := linkEnvironment pool (linkUnit pool unitName imports file) outline
  let items := messagesOf outline
  let (messages, entries) ←
    linkMessages env file.dialect ⟨pool.units.length⟩ (pool.messages.length + items.length) items
  .ok (linkedUnit pool unitName imports file messages entries)

end SchemaRecords.Schema
