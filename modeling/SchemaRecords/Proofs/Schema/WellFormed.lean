import Mathlib.Data.List.Nodup
import SchemaRecords.Schema.Registration

/-!
# Well-formed pools

Every place that is stored anywhere in a pool is the place of something, and the tables of
a pool list exactly what the descriptors say.  The conditions on a single message, and on a
single unit, only ask that something stands at some places of the pool; they never ask that
something is absent.  A pool that grows without moving anything therefore keeps them, and
a proof that a registration preserves them only has to look at what was added.
-/

namespace SchemaRecords.Schema

/-! ## References -/

namespace Pool

/-- Something stands at the place that a type refers to. -/
def HasType (pool : Pool) : ValueType → Prop
  | .scalar _ => True
  | .message id => ∃ message, pool.message? id = some message
  | .enumeration id => ∃ enumeration, pool.enumeration? id = some enumeration

/-- A full name is that of a message other than a map entry, or that of an enumeration. -/
def Names (pool : Pool) (fullName : String) : Symbol → Prop
  | .message id => ∃ message, pool.message? id = some message ∧ message.fullName = fullName ∧
      message.isMapEntry = false
  | .enumeration id => ∃ enumeration, pool.enumeration? id = some enumeration ∧
      enumeration.fullName = fullName

/-- A type that can be written in a schema.  Map entries cannot. -/
def Nameable (pool : Pool) : ValueType → Prop
  | .scalar _ => True
  | .message id => ∃ message, pool.message? id = some message ∧ message.isMapEntry = false
  | .enumeration id => ∃ enumeration, pool.enumeration? id = some enumeration

theorem Nameable.hasType {pool : Pool} {type : ValueType} (nameable : pool.Nameable type) :
    pool.HasType type := by
  cases type with
  | message id =>
    rcases nameable with ⟨message, found, _⟩
    exact ⟨message, found⟩
  | _ => exact nameable

theorem Names.nameable {pool : Pool} {fullName : String} {symbol : Symbol}
    (named : pool.Names fullName symbol) : pool.Nameable symbol.type := by
  cases symbol with
  | message id =>
    rcases named with ⟨message, found, _, notEntry⟩
    exact ⟨message, found, notEntry⟩
  | enumeration id =>
    rcases named with ⟨enumeration, found, _⟩
    exact ⟨enumeration, found⟩

end Pool

/-! ## Messages -/

/-- A number that a field may have. -/
def LegalNumber (number : Nat) : Prop :=
  1 ≤ number ∧ number ≤ maxFieldNumber ∧ ¬ (19000 ≤ number ∧ number ≤ 19999)

instance : DecidablePred LegalNumber := fun number =>
  inferInstanceAs (Decidable (1 ≤ number ∧ number ≤ maxFieldNumber ∧
    ¬ (19000 ≤ number ∧ number ≤ 19999)))

/-- The fields of a message are told apart by number and by name, and its tables and
oneofs list their positions. -/
structure Message.Indexed (message : Message) : Prop where
  numbers : ∀ field ∈ message.fields, LegalNumber field.number
  numbersDistinct : (message.fields.map (·.number)).Nodup
  namesDistinct : (message.fields.map (·.name)).Nodup
  byNumber : ∀ (number position : Nat), message.byNumber.find? number = some position ↔
    ∃ field, message.fields[position]? = some field ∧ field.number = number
  byName : ∀ (name : String) (position : Nat), message.byName.find? name = some position ↔
    ∃ field, message.fields[position]? = some field ∧ field.name = name
  oneofs : ∀ (index : Nat) (oneof : Oneof), message.oneofs[index]? = some oneof → ∀ position,
    position ∈ oneof.members ↔
      ∃ field, message.fields[position]? = some field ∧ field.oneof = some index
  oneofMembersDistinct : ∀ oneof ∈ message.oneofs, oneof.members.Nodup
  oneofsInRange : ∀ field ∈ message.fields, ∀ index, field.oneof = some index →
    index < message.oneofs.length

/-- A message that stands for the entries of a map field. -/
def Message.IsEntry (message : Message) : Prop :=
  message.isMapEntry = true ∧ ∃ key type, key.isMapKey = true ∧
    message.fields = [.entryKey key, .entryValue type]

/-- A message whose references all lead somewhere in a pool, and whose family knows it. -/
structure Message.WellFormed (pool : Pool) (message : Message) : Prop where
  indexed : message.Indexed
  unit : ∃ unit, pool.unitAt? message.unit = some unit
  types : ∀ field ∈ message.fields, pool.HasType field.type
  nameable : ∀ field ∈ message.fields, field.isMap = false → pool.Nameable field.type
  packable : ∀ field ∈ message.fields, ∀ type, field.shape = .repeated type true →
    type.isPackable = true
  entries : ∀ field ∈ message.fields, ∀ id, field.shape = .map id →
    ∃ entry, pool.message? id = some entry ∧ entry.IsEntry
  oneofsSingle : ∀ field ∈ message.fields, field.oneof.isSome = true →
    ∃ type explicit, field.shape = .singular type explicit
  parent : ∀ id, message.parent = some id → id.index < message.id.index ∧
    ∃ outer, pool.message? id = some outer ∧ outer.isMapEntry = false ∧
      (message.isMapEntry = false → message.id ∈ outer.nestedMessages)
  root : message.parent = none → message.isMapEntry = false ∧
    ∃ unit, pool.unitAt? message.unit = some unit ∧ unit.messages.count message.id = 1
  nested : ∀ id ∈ message.nestedMessages, ∃ inner, pool.message? id = some inner ∧
    inner.isMapEntry = false ∧ inner.parent = some message.id
  nestedDistinct : message.nestedMessages.Nodup
  nestedEnumerations : ∀ id ∈ message.nestedEnumerations,
    ∃ enumeration, pool.enumeration? id = some enumeration

/-! ## Enumerations and units -/

/-- An enumeration has a first value, and all of its numbers fit into 32 bits. -/
structure Enumeration.WellFormed (pool : Pool) (enumeration : Enumeration) : Prop where
  unit : ∃ unit, pool.unitAt? enumeration.unit = some unit
  nonempty : enumeration.values ≠ []
  numbers : ∀ value ∈ enumeration.values, -2 ^ 31 ≤ value.number ∧ value.number < 2 ^ 31

/-- A unit at some place whose references all lead somewhere in a pool. -/
structure SchemaUnit.WellFormed (pool : Pool) (id : UnitId) (unit : SchemaUnit) : Prop where
  dependencies : ∀ other ∈ unit.dependencies, ∃ found, pool.unitAt? other = some found
  publicDependencies : ∀ other ∈ unit.publicDependencies, ∃ found, pool.unitAt? other = some found
  messages : ∀ root ∈ unit.messages, ∃ message, pool.message? root = some message ∧
    message.unit = id ∧ message.parent = none ∧ message.isMapEntry = false
  enumerations : ∀ root ∈ unit.enumerations,
    ∃ enumeration, pool.enumeration? root = some enumeration ∧ enumeration.unit = id

/-! ## Pools -/

/-- Every descriptor is well formed, every message knows its place, and the two tables
list exactly the names of units and the full names of messages and enumerations. -/
structure Pool.WellFormed (pool : Pool) : Prop where
  places : ∀ id message, pool.message? id = some message → message.id = id
  messages : ∀ message ∈ pool.messages, message.WellFormed pool
  enumerations : ∀ enumeration ∈ pool.enumerations, enumeration.WellFormed pool
  units : ∀ id unit, pool.unitAt? id = some unit → unit.WellFormed pool id
  unitsByName : ∀ name id, pool.unitsByName.find? name = some id ↔
    ∃ unit, pool.unitAt? id = some unit ∧ unit.name = name
  symbols : ∀ fullName symbol, pool.symbols.find? fullName = some symbol ↔
    pool.Names fullName symbol
  symbolsOnce : (pool.symbols.entries.map (·.1)).Nodup

/-- A message that is found by name stands at some place and is no map entry. -/
theorem Pool.WellFormed.exists_of_findMessage? {pool : Pool} (wellFormed : pool.WellFormed)
    {name : String} {message : Message} (found : pool.findMessage? name = some message) :
    ∃ id, pool.message? id = some message ∧ message.isMapEntry = false := by
  unfold findMessage? at found
  split at found
  · rename_i id named
    rcases (wellFormed.symbols _ _).mp named with ⟨other, there, _, notEntry⟩
    have same : other = message := Option.some.inj (there.symm.trans found)
    exact ⟨id, found, same ▸ notEntry⟩
  · cases found

theorem Pool.WellFormed.fullName_of_findMessage? {pool : Pool} (wellFormed : pool.WellFormed)
    {name : String} {message : Message} (found : pool.findMessage? name = some message) :
    message.fullName = withoutLeadingDot name := by
  unfold findMessage? at found
  split at found
  · rename_i id named
    rcases (wellFormed.symbols _ _).mp named with ⟨other, there, fullName, _⟩
    cases there.symm.trans found
    exact fullName
  · cases found

/-- A pool knows the names of exactly its units. -/
theorem Pool.WellFormed.unit?_isSome_iff {pool : Pool} (wellFormed : pool.WellFormed)
    {name : String} :
    (pool.unit? name).isSome = true ↔ name ∈ pool.units.map (·.name) := by
  constructor
  · intro known
    rcases Option.isSome_iff_exists.mp known with ⟨unit, found⟩
    rcases Option.bind_eq_some_iff.mp found with ⟨id, named, there⟩
    rcases (wellFormed.unitsByName name id).mp named with ⟨other, thereToo, isName⟩
    cases there.symm.trans thereToo
    exact List.mem_map.mpr ⟨unit, List.mem_of_getElem? there, isName⟩
  · intro member
    rcases List.mem_map.mp member with ⟨unit, listed, isName⟩
    rcases List.getElem?_of_mem listed with ⟨index, there⟩
    have named := (wellFormed.unitsByName name ⟨index⟩).mpr ⟨unit, there, isName⟩
    exact Option.isSome_iff_exists.mpr ⟨unit, Option.bind_eq_some_iff.mpr ⟨_, named, there⟩⟩

/-! ## Growing pools -/

/-- A pool that keeps everything of another one in its place and under its name. -/
structure Pool.Extends (grown pool : Pool) : Prop where
  message : ∀ id message, pool.message? id = some message → grown.message? id = some message
  enumeration : ∀ id enumeration, pool.enumeration? id = some enumeration →
    grown.enumeration? id = some enumeration
  unit : ∀ id unit, pool.unitAt? id = some unit → grown.unitAt? id = some unit
  symbol : ∀ name symbol, pool.symbols.find? name = some symbol →
    grown.symbols.find? name = some symbol
  unitName : ∀ name id, pool.unitsByName.find? name = some id →
    grown.unitsByName.find? name = some id

namespace Pool.Extends

variable {grown pool : Pool}

theorem refl (pool : Pool) : pool.Extends pool :=
  ⟨fun _ _ found => found, fun _ _ found => found, fun _ _ found => found,
    fun _ _ found => found, fun _ _ found => found⟩

theorem trans {larger : Pool} (further : larger.Extends grown) (kept : grown.Extends pool) :
    larger.Extends pool where
  message := fun id message found => further.message id message (kept.message id message found)
  enumeration := fun id enumeration found =>
    further.enumeration id enumeration (kept.enumeration id enumeration found)
  unit := fun id unit found => further.unit id unit (kept.unit id unit found)
  symbol := fun name symbol found => further.symbol name symbol (kept.symbol name symbol found)
  unitName := fun name id found => further.unitName name id (kept.unitName name id found)

theorem hasType (kept : grown.Extends pool) {type : ValueType} (known : pool.HasType type) :
    grown.HasType type := by
  cases type with
  | scalar type => trivial
  | message id =>
    rcases known with ⟨message, found⟩
    exact ⟨message, kept.message id message found⟩
  | enumeration id =>
    rcases known with ⟨enumeration, found⟩
    exact ⟨enumeration, kept.enumeration id enumeration found⟩

theorem nameable (kept : grown.Extends pool) {type : ValueType} (known : pool.Nameable type) :
    grown.Nameable type := by
  cases type with
  | scalar type => trivial
  | message id =>
    rcases known with ⟨message, found, notEntry⟩
    exact ⟨message, kept.message id message found, notEntry⟩
  | enumeration id =>
    rcases known with ⟨enumeration, found⟩
    exact ⟨enumeration, kept.enumeration id enumeration found⟩

end Pool.Extends

/-- A message stays well formed when its pool grows. -/
theorem Message.WellFormed.mono {grown pool : Pool} (kept : grown.Extends pool) {message : Message}
    (wellFormed : message.WellFormed pool) : message.WellFormed grown where
  indexed := wellFormed.indexed
  unit := by
    rcases wellFormed.unit with ⟨unit, found⟩
    exact ⟨unit, kept.unit _ unit found⟩
  types := fun field member => kept.hasType (wellFormed.types field member)
  nameable := fun field member notMap => kept.nameable (wellFormed.nameable field member notMap)
  packable := wellFormed.packable
  entries := by
    intro field member id isMap
    rcases wellFormed.entries field member id isMap with ⟨entry, found, isEntry⟩
    exact ⟨entry, kept.message id entry found, isEntry⟩
  oneofsSingle := wellFormed.oneofsSingle
  parent := by
    intro id isParent
    rcases wellFormed.parent id isParent with ⟨earlier, outer, found, facts⟩
    exact ⟨earlier, outer, kept.message id outer found, facts⟩
  root := by
    intro noParent
    rcases wellFormed.root noParent with ⟨notEntry, unit, found, once⟩
    exact ⟨notEntry, unit, kept.unit _ unit found, once⟩
  nested := by
    intro id member
    rcases wellFormed.nested id member with ⟨inner, found, facts⟩
    exact ⟨inner, kept.message id inner found, facts⟩
  nestedDistinct := wellFormed.nestedDistinct
  nestedEnumerations := by
    intro id member
    rcases wellFormed.nestedEnumerations id member with ⟨enumeration, found⟩
    exact ⟨enumeration, kept.enumeration id enumeration found⟩

theorem Enumeration.WellFormed.mono {grown pool : Pool} (kept : grown.Extends pool)
    {enumeration : Enumeration} (wellFormed : enumeration.WellFormed pool) :
    enumeration.WellFormed grown := by
  rcases wellFormed with ⟨⟨unit, found⟩, nonempty, numbers⟩
  exact ⟨⟨unit, kept.unit _ unit found⟩, nonempty, numbers⟩

theorem SchemaUnit.WellFormed.mono {grown pool : Pool} (kept : grown.Extends pool) {id : UnitId}
    {unit : SchemaUnit} (wellFormed : unit.WellFormed pool id) : unit.WellFormed grown id where
  dependencies := by
    intro other member
    rcases wellFormed.dependencies other member with ⟨found, there⟩
    exact ⟨found, kept.unit other found there⟩
  publicDependencies := by
    intro other member
    rcases wellFormed.publicDependencies other member with ⟨found, there⟩
    exact ⟨found, kept.unit other found there⟩
  messages := by
    intro root member
    rcases wellFormed.messages root member with ⟨message, found, facts⟩
    exact ⟨message, kept.message root message found, facts⟩
  enumerations := by
    intro root member
    rcases wellFormed.enumerations root member with ⟨enumeration, found, facts⟩
    exact ⟨enumeration, kept.enumeration root enumeration found, facts⟩

/-! ## What may be added -/

/-- The names that a unit brings are new to a pool, and none is brought twice. -/
structure LinkedUnit.Fresh (pool : Pool) (linked : LinkedUnit) : Prop where
  unitName : pool.unitsByName.find? linked.unit.name = none
  fresh : ∀ entry ∈ linked.symbols, pool.symbols.find? entry.1 = none
  distinct : (linked.symbols.map (·.1)).Nodup

/-- The descriptors of a unit fit behind those of a pool: with them in place everything
they refer to is there, their names are new, and the names they declare are theirs. -/
structure LinkedUnit.Fits (pool : Pool) (linked : LinkedUnit) : Prop extends linked.Fresh pool where
  places : ∀ (position : Nat) (message : Message), linked.messages[position]? = some message →
    message.id = ⟨pool.messages.length + position⟩
  messages : ∀ message ∈ linked.messages, message.WellFormed (pool.commit linked)
  enumerations : ∀ enumeration ∈ linked.enumerations, enumeration.WellFormed (pool.commit linked)
  unit : linked.unit.WellFormed (pool.commit linked) ⟨pool.units.length⟩
  messageSymbols : ∀ fullName id, (fullName, Symbol.message id) ∈ linked.symbols ↔
    ∃ message ∈ linked.messages, message.id = id ∧ message.fullName = fullName ∧
      message.isMapEntry = false
  enumerationSymbols : ∀ fullName id, (fullName, Symbol.enumeration id) ∈ linked.symbols ↔
    ∃ (position : Nat) (enumeration : Enumeration),
      linked.enumerations[position]? = some enumeration ∧
      id = ⟨pool.enumerations.length + position⟩ ∧ enumeration.fullName = fullName

namespace Pool

variable {pool : Pool} {linked : LinkedUnit}

/-- The elements of a list to which more is appended. -/
theorem getElem?_append_iff {α : Type} {first second : List α} {position : Nat} {element : α} :
    (first ++ second)[position]? = some element ↔ first[position]? = some element ∨
      ∃ beyond, position = first.length + beyond ∧ second[beyond]? = some element := by
  by_cases inside : position < first.length
  · rw [List.getElem?_append_left inside]
    refine ⟨Or.inl, ?_⟩
    rintro (found | ⟨beyond, there, _⟩)
    · exact found
    · omega
  · rw [List.getElem?_append_right (by omega)]
    constructor
    · intro found
      exact Or.inr ⟨position - first.length, by omega, found⟩
    · rintro (found | ⟨beyond, there, found⟩)
      · have := (List.getElem?_eq_some_iff.mp found).1
        omega
      · subst there
        rwa [Nat.add_sub_cancel_left]

theorem message?_commit (id : MessageId) (message : Message) :
    (pool.commit linked).message? id = some message ↔ pool.message? id = some message ∨
      ∃ position, id = ⟨pool.messages.length + position⟩ ∧
        linked.messages[position]? = some message := by
  cases id with
  | mk index =>
    rw [message?, message?, commit, getElem?_append_iff]
    simp only [MessageId.mk.injEq]

theorem enumeration?_commit (id : EnumerationId) (enumeration : Enumeration) :
    (pool.commit linked).enumeration? id = some enumeration ↔
      pool.enumeration? id = some enumeration ∨
        ∃ position, id = ⟨pool.enumerations.length + position⟩ ∧
          linked.enumerations[position]? = some enumeration := by
  cases id with
  | mk index =>
    rw [enumeration?, enumeration?, commit, getElem?_append_iff]
    simp only [EnumerationId.mk.injEq]

theorem unitAt?_commit (id : UnitId) (unit : SchemaUnit) :
    (pool.commit linked).unitAt? id = some unit ↔
      pool.unitAt? id = some unit ∨ id = ⟨pool.units.length⟩ ∧ unit = linked.unit := by
  cases id with
  | mk index =>
    rw [unitAt?, unitAt?, commit, getElem?_append_iff]
    refine or_congr Iff.rfl ⟨?_, ?_⟩
    · rintro ⟨beyond, there, found⟩
      have last : beyond = 0 := by
        have := (List.getElem?_eq_some_iff.mp found).1
        simp only [List.length_singleton] at this
        omega
      subst last
      exact ⟨congrArg UnitId.mk there, (Option.some.inj found).symm⟩
    · rintro ⟨there, same⟩
      exact ⟨0, congrArg UnitId.index there, congrArg some same.symm⟩

/-- A committed symbol is one of the unit or one of the pool. -/
theorem find?_symbols_commit (fresh : linked.Fresh pool) (fullName : String) (symbol : Symbol) :
    (pool.commit linked).symbols.find? fullName = some symbol ↔
      (fullName, symbol) ∈ linked.symbols ∨ pool.symbols.find? fullName = some symbol := by
  rw [commit, Table.find?_insertAll, Option.or_eq_some_iff,
    Table.find?_ofList_eq_some_iff fresh.distinct]
  refine or_congr Iff.rfl ⟨And.right, fun found => ⟨?_, found⟩⟩
  rw [Table.find?_ofList_eq_none_iff]
  intro declared
  rcases List.mem_map.mp declared with ⟨entry, member, same⟩
  have := fresh.fresh entry member
  rw [same, found] at this
  cases this

/-- A committed unit name is the new one or one of the pool. -/
theorem find?_unitsByName_commit (fresh : linked.Fresh pool) (name : String) (id : UnitId) :
    (pool.commit linked).unitsByName.find? name = some id ↔
      (name = linked.unit.name ∧ id = ⟨pool.units.length⟩) ∨
        pool.unitsByName.find? name = some id := by
  have alone : ([(linked.unit.name, UnitId.mk pool.units.length)].map (·.1)).Nodup :=
    List.nodup_singleton _
  rw [commit, Table.insert, Table.find?_insertAll, Option.or_eq_some_iff,
    Table.find?_ofList_eq_some_iff alone, Table.find?_ofList_eq_none_iff]
  simp only [List.mem_singleton, Prod.mk.injEq, List.map_singleton]
  refine or_congr Iff.rfl ⟨And.right, fun found => ⟨?_, found⟩⟩
  intro same
  rw [same, fresh.unitName] at found
  cases found

/-- Committing a unit moves and renames nothing. -/
theorem commit_extends (fresh : linked.Fresh pool) : (pool.commit linked).Extends pool where
  message := fun id message found => (message?_commit id message).mpr (Or.inl found)
  enumeration := fun id enumeration found => (enumeration?_commit id enumeration).mpr (Or.inl found)
  unit := fun id unit found => (unitAt?_commit id unit).mpr (Or.inl found)
  symbol := fun name symbol found => (find?_symbols_commit fresh name symbol).mpr (Or.inr found)
  unitName := fun name id found => (find?_unitsByName_commit fresh name id).mpr (Or.inr found)

/-- The names of a committed unit are its own and those of the pool. -/
theorem names_commit (fits : linked.Fits pool) (fullName : String) (symbol : Symbol) :
    (pool.commit linked).Names fullName symbol ↔
      (fullName, symbol) ∈ linked.symbols ∨ pool.Names fullName symbol := by
  cases symbol with
  | message id =>
    rw [fits.messageSymbols]
    simp only [Names, message?_commit]
    constructor
    · rintro ⟨message, found | ⟨position, there, found⟩, facts⟩
      · exact Or.inr ⟨message, found, facts⟩
      · have place := fits.places position message found
        exact Or.inl ⟨message, List.mem_of_getElem? found, place.trans there.symm, facts⟩
    · rintro (⟨message, member, there, facts⟩ | ⟨message, found, facts⟩)
      · rcases List.mem_iff_getElem?.mp member with ⟨position, found⟩
        have place := fits.places position message found
        exact ⟨message, Or.inr ⟨position, there.symm.trans place, found⟩, facts⟩
      · exact ⟨message, Or.inl found, facts⟩
  | enumeration id =>
    rw [fits.enumerationSymbols]
    simp only [Names, enumeration?_commit]
    constructor
    · rintro ⟨enumeration, found | ⟨position, there, found⟩, same⟩
      · exact Or.inr ⟨enumeration, found, same⟩
      · exact Or.inl ⟨position, enumeration, found, there, same⟩
    · rintro (⟨position, enumeration, found, there, same⟩ | ⟨enumeration, found, same⟩)
      · exact ⟨enumeration, Or.inr ⟨position, there, found⟩, same⟩
      · exact ⟨enumeration, Or.inl found, same⟩

/-- Committing a unit that fits keeps a pool well formed. -/
theorem WellFormed.commit (wellFormed : pool.WellFormed) (fits : linked.Fits pool) :
    (pool.commit linked).WellFormed where
  places := by
    intro id message found
    rcases (message?_commit id message).mp found with old | ⟨position, there, new⟩
    · exact wellFormed.places id message old
    · rw [fits.places position message new, there]
  messages := by
    intro message member
    rcases List.mem_append.mp member with old | new
    · exact (wellFormed.messages message old).mono (commit_extends fits.toFresh)
    · exact fits.messages message new
  enumerations := by
    intro enumeration member
    rcases List.mem_append.mp member with old | new
    · exact (wellFormed.enumerations enumeration old).mono (commit_extends fits.toFresh)
    · exact fits.enumerations enumeration new
  units := by
    intro id unit found
    rcases (unitAt?_commit id unit).mp found with old | ⟨there, same⟩
    · exact (wellFormed.units id unit old).mono (commit_extends fits.toFresh)
    · rw [there, same]
      exact fits.unit
  unitsByName := by
    intro name id
    rw [find?_unitsByName_commit fits.toFresh, wellFormed.unitsByName]
    simp only [unitAt?_commit]
    constructor
    · rintro (⟨same, there⟩ | ⟨unit, found, same⟩)
      · exact ⟨linked.unit, Or.inr ⟨there, rfl⟩, same.symm⟩
      · exact ⟨unit, Or.inl found, same⟩
    · rintro ⟨unit, found | ⟨there, new⟩, same⟩
      · exact Or.inr ⟨unit, found, same⟩
      · exact Or.inl ⟨same ▸ new ▸ rfl, there⟩
  symbols := by
    intro fullName symbol
    rw [find?_symbols_commit fits.toFresh, names_commit fits, wellFormed.symbols]
  symbolsOnce := by
    simp only [Pool.commit, Table.insertAll, List.map_append, List.map_reverse]
    refine List.nodup_append.mpr ⟨List.nodup_reverse.mpr fits.distinct, wellFormed.symbolsOnce, ?_⟩
    intro name new other old same
    subst same
    rcases List.mem_map.mp (List.mem_reverse.mp new) with ⟨entry, member, itsName⟩
    have absent := fits.fresh entry member
    rw [itsName, Table.find?_eq_none_iff] at absent
    exact absent old

/-- Nothing is said of an empty pool. -/
theorem wellFormed_empty : empty.WellFormed where
  places := fun _ _ found => nomatch found
  messages := fun _ member => nomatch member
  enumerations := fun _ member => nomatch member
  units := fun _ _ found => nomatch found
  unitsByName := by
    intro name id
    rw [empty, Table.find?_empty]
    constructor
    · intro found
      cases found
    · rintro ⟨unit, found, _⟩
      cases found
  symbols := by
    intro fullName symbol
    rw [empty, Table.find?_empty]
    constructor
    · intro found
      cases found
    · intro named
      cases symbol <;> rcases named with ⟨_, found, _⟩ <;> cases found
  symbolsOnce := List.nodup_nil

end Pool
end SchemaRecords.Schema
