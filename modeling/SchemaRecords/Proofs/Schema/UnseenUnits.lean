import SchemaRecords.Proofs.Schema.IndexPositions
import SchemaRecords.Proofs.Schema.RelocatedLinking

/-!
# Units that are not seen

A text sees the units that it imports and those that they pass on, and only their names can
stand for anything in it.  A unit that was registered in between without being imported makes no
difference, as long as no name is declared twice: the text is linked to the same descriptors, at
places further back.
-/

namespace SchemaRecords.Schema

/-! ## Making room -/

/-- A linked unit whose descriptors fit behind those of a pool and know that they belong to it. -/
structure LinkedUnit.Joins (pool : Pool) (linked : LinkedUnit) : Prop extends linked.Fits pool where
  messageUnit : ∀ message ∈ linked.messages, message.unit = ⟨pool.units.length⟩
  enumerationUnit : ∀ enumeration ∈ linked.enumerations, enumeration.unit = ⟨pool.units.length⟩

theorem Linked.joins {pool : Pool} {unitName : String} {file : FileDecl}
    {imports : List (UnitId × Bool)} {messages entries : List Message}
    (run : Linked pool unitName file imports messages entries) :
    (linkedUnit pool unitName imports file messages entries).Joins pool where
  toFits := run.fits
  messageUnit := fun _ member => run.unit_of_message member
  enumerationUnit := by
    intro enumeration member
    rcases List.mem_map.mp member with ⟨item, _, same⟩
    exact same ▸ rfl

/-- A linked unit once places have changed. -/
def LinkedUnit.relocate (relocation : Relocation) (linked : LinkedUnit) : LinkedUnit :=
  ⟨linked.unit.relocate relocation, linked.messages.map (·.relocate relocation),
    linked.enumerations.map (·.relocate relocation),
    linked.symbols.map fun entry => (entry.1, entry.2.relocate relocation)⟩

/-- A place behind some others, moved further back to make room for more. -/
def moveBack (before room index : Nat) : Nat := if index < before then index else index + room

/-- What stands behind a pool moves behind another unit. -/
def Pool.makeRoom (pool : Pool) (other : LinkedUnit) : Relocation where
  message id := ⟨moveBack pool.messages.length other.messages.length id.index⟩
  enumeration id := ⟨moveBack pool.enumerations.length other.enumerations.length id.index⟩
  unit id := ⟨moveBack pool.units.length 1 id.index⟩

theorem moveBack_of_lt {before room index : Nat} (inside : index < before) :
    moveBack before room index = index := if_pos inside

theorem moveBack_add (before room count : Nat) :
    moveBack before room (before + count) = before + room + count := by
  rw [moveBack, if_neg (by omega)]
  omega

namespace Pool

variable {pool : Pool} {other : LinkedUnit}

/-- Nothing moves that is in the pool. -/
theorem makeRoom_agree (pool : Pool) (other : LinkedUnit) :
    Relocation.AgreeOn pool (pool.makeRoom other) .identity where
  message := fun _ _ found =>
    congrArg MessageId.mk (moveBack_of_lt (List.getElem?_eq_some_iff.mp found).1)
  enumeration := fun _ _ found =>
    congrArg EnumerationId.mk (moveBack_of_lt (List.getElem?_eq_some_iff.mp found).1)
  unit := fun _ _ found =>
    congrArg UnitId.mk (moveBack_of_lt (List.getElem?_eq_some_iff.mp found).1)

theorem cursor_commit (pool : Pool) (other : LinkedUnit) :
    (pool.commit other).cursor = ⟨pool.messages.length + other.messages.length,
      pool.enumerations.length + other.enumerations.length⟩ := by
  rw [cursor, commit, List.length_append, List.length_append]

theorem length_units_commit (pool : Pool) (other : LinkedUnit) :
    (pool.commit other).units.length = pool.units.length + 1 :=
  List.length_append

/-- What stands behind the pool finds its place behind the other unit. -/
theorem makeRoom_moves (pool : Pool) (other : LinkedUnit) :
    (pool.makeRoom other).Moves pool.cursor (pool.commit other).cursor := by
  rw [cursor_commit]
  exact ⟨fun count => congrArg MessageId.mk (moveBack_add _ _ count),
    fun count => congrArg EnumerationId.mk (moveBack_add _ _ count)⟩

theorem makeRoom_unit (pool : Pool) (other : LinkedUnit) :
    (pool.makeRoom other).unit ⟨pool.units.length⟩ = ⟨(pool.commit other).units.length⟩ := by
  rw [length_units_commit]
  exact congrArg UnitId.mk (moveBack_add pool.units.length 1 0)

/-! ## Looking up names -/

theorem find?_unitsByName_of_ne {name : String} (different : name ≠ other.unit.name) :
    (pool.commit other).unitsByName.find? name = pool.unitsByName.find? name := by
  have absent : name ∉ [(other.unit.name, UnitId.mk pool.units.length)].map (·.1) := by
    simpa using different
  rw [commit, Table.insert, Table.find?_insertAll, (Table.find?_ofList_eq_none_iff _ _).mpr absent,
    Option.none_or]

theorem find?_symbols_of_notMem {fullName : String} (absent : fullName ∉ other.symbols.map (·.1)) :
    (pool.commit other).symbols.find? fullName = pool.symbols.find? fullName := by
  rw [commit, Table.find?_insertAll, (Table.find?_ofList_eq_none_iff _ _).mpr absent,
    Option.none_or]

theorem resolveImports_commit {decls : List ImportDecl}
    (apart : ∀ decl ∈ decls, decl.path ≠ other.unit.name) :
    resolveImports (pool.commit other) decls = resolveImports pool decls := by
  induction decls with
  | nil => rfl
  | cons decl rest inductionHypothesis =>
    rw [resolveImports, resolveImports, find?_unitsByName_of_ne (apart decl List.mem_cons_self),
      inductionHypothesis fun later member => apart later (List.mem_cons_of_mem _ member)]

theorem checkOutline_cons {item : Outlined}
    (nonempty : ∀ enumeration, item = .enumeration enumeration → enumeration.decl.values ≠ [])
    (earlier : List String) (rest : List Outlined) :
    checkOutline pool earlier (item :: rest) =
      if item.fullName ∈ earlier ∨ pool.declares item.fullName then
        .error (.duplicateSymbol item.fullName)
      else checkOutline pool (item.fullName :: earlier) rest := by
  cases item with
  | message item => rfl
  | enumeration item =>
    rcases item with ⟨id, fullName, name, values⟩
    cases values with
    | nil => exact absurd rfl (nonempty _ rfl)
    | cons first others => rfl

theorem checkOutline_commit {relocation : Relocation} {outline : List Outlined}
    (apart : ∀ item ∈ outline, item.fullName ∉ other.symbols.map (·.1)) (earlier : List String) :
    checkOutline (pool.commit other) earlier (outline.map (·.relocate relocation)) =
      checkOutline pool earlier outline := by
  induction outline generalizing earlier with
  | nil => rfl
  | cons item rest inductionHypothesis =>
    have later (earlier : List String) := inductionHypothesis
      (fun other member => apart other (List.mem_cons_of_mem _ member)) earlier
    have declares : (pool.commit other).declares item.fullName = pool.declares item.fullName := by
      rw [Pool.declares, Pool.declares, find?_symbols_of_notMem (apart item List.mem_cons_self)]
    by_cases empty : ∃ id fullName name, item = .enumeration ⟨id, fullName, ⟨name, []⟩⟩
    · rcases empty with ⟨id, fullName, name, same⟩
      subst same
      rfl
    · have nonempty : ∀ enumeration, item = .enumeration enumeration →
          enumeration.decl.values ≠ [] := by
        rintro ⟨id, fullName, name, values⟩ same none
        exact empty ⟨id, fullName, name, same.trans (congrArg _ (congrArg _ (congrArg _ none)))⟩
      have movedNonempty : ∀ enumeration, item.relocate relocation = .enumeration enumeration →
          enumeration.decl.values ≠ [] := by
        intro enumeration same
        cases item with
        | message item => cases same
        | enumeration item =>
          cases same
          exact nonempty item rfl
      rw [List.map_cons, checkOutline_cons nonempty, checkOutline_cons movedNonempty,
        Outlined.fullName_relocate, declares, later]

/-! ## What can be seen -/

/-- The last unit is only seen if it is imported. -/
theorem visibleThrough_commit {imports : List UnitId} (unseen : ⟨pool.units.length⟩ ∉ imports) :
    (pool.commit other).visibleThrough imports = pool.visibleThrough imports := by
  rw [visibleThrough, visibleThrough, commit, List.zipIdx_append, List.foldr_append, Nat.zero_add]
  exact congrArg (List.foldr _ · pool.units.zipIdx) (if_neg unseen)

/-- Only registered units can be seen, by induction on the units from the last one on. -/
theorem WellFormed.exists_of_visible (wellFormed : pool.WellFormed) {imports : List UnitId}
    (registered : ∀ id ∈ imports, ∃ unit, pool.unitAt? id = some unit) :
    ∀ id ∈ pool.visibleThrough imports, ∃ unit, pool.unitAt? id = some unit := by
  suffices ∀ entries : List (SchemaUnit × Nat),
      (∀ entry ∈ entries, pool.unitAt? ⟨entry.2⟩ = some entry.1) →
        ∀ id ∈ entries.foldr (fun entry visible =>
          if ⟨entry.2⟩ ∈ visible then visible ++ entry.1.publicDependencies else visible) imports,
          ∃ unit, pool.unitAt? id = some unit by
    apply this
    intro entry member
    exact List.mk_mem_zipIdx_iff_getElem?.mp member
  intro entries places
  induction entries with
  | nil => exact registered
  | cons entry rest inductionHypothesis =>
    have later := inductionHypothesis
      fun other member => places other (List.mem_cons_of_mem _ member)
    intro id member
    rw [List.foldr_cons] at member
    split at member
    · rcases List.mem_append.mp member with visible | passedOn
      · exact later id visible
      · have unit := wellFormed.units _ _ (places entry List.mem_cons_self)
        exact unit.publicDependencies id passedOn
    · exact later id member

/-- What a joined unit declares belongs to this unit. -/
theorem unitOf?_of_joined (joins : other.Joins pool) {fullName : String} {symbol : Symbol}
    (declared : (fullName, symbol) ∈ other.symbols) :
    (pool.commit other).unitOf? symbol = some ⟨pool.units.length⟩ := by
  cases symbol with
  | message id =>
    rcases (joins.messageSymbols fullName id).mp declared with ⟨message, member, place, _⟩
    rcases List.mem_iff_getElem?.mp member with ⟨position, listed⟩
    have found : (pool.commit other).message? id = some message :=
      (message?_commit id message).mpr
        (Or.inr ⟨position, place ▸ joins.places position message listed, listed⟩)
    rw [unitOf?, found, Option.map_some, joins.messageUnit message member]
  | enumeration id =>
    rcases (joins.enumerationSymbols fullName id).mp declared with
      ⟨position, enumeration, listed, place, _⟩
    have found : (pool.commit other).enumeration? id = some enumeration :=
      (enumeration?_commit id enumeration).mpr (Or.inr ⟨position, place, listed⟩)
    rw [unitOf?, found, Option.map_some,
      joins.enumerationUnit enumeration (List.mem_of_getElem? listed)]

/-- A registered name stands for something whose unit stays what it is. -/
theorem unitOf?_commit (kept : (pool.commit other).Extends pool)
    {fullName : String} {symbol : Symbol} (named : pool.Names fullName symbol) :
    (pool.commit other).unitOf? symbol = pool.unitOf? symbol := by
  cases symbol with
  | message id =>
    rcases named with ⟨message, found, _⟩
    rw [unitOf?, unitOf?, found, kept.message id message found]
  | enumeration id =>
    rcases named with ⟨enumeration, found, _⟩
    rw [unitOf?, unitOf?, found, kept.enumeration id enumeration found]

theorem imported?_commit (wellFormed : pool.WellFormed) (joins : other.Joins pool)
    {visible : List UnitId} (unseen : ⟨pool.units.length⟩ ∉ visible)
    (declared movedDeclared : Table String Symbol) (fullName : String) :
    (Environment.mk (pool.commit other) movedDeclared visible).imported? fullName =
      ((Environment.mk pool declared visible).imported? fullName).map
        (·.relocate (pool.makeRoom other)) := by
  have kept := commit_extends joins.toFresh
  rw [Environment.imported?, Environment.imported?]
  dsimp only
  by_cases own : fullName ∈ other.symbols.map (·.1)
  · rcases List.mem_map.mp own with ⟨⟨name, symbol⟩, member, same⟩
    subst same
    have old := joins.fresh _ member
    have new := (find?_symbols_commit joins.toFresh _ _).mpr (Or.inl member)
    rw [old, new, Option.filter_some, unitOf?_of_joined joins member]
    simp [unseen]
  · rw [find?_symbols_of_notMem own]
    cases found : pool.symbols.find? fullName with
    | none => rfl
    | some symbol =>
      have named := (wellFormed.symbols fullName symbol).mp found
      have fixed : symbol.relocate (pool.makeRoom other) = symbol :=
        (relocate_symbol (pool.makeRoom_agree other) named).trans symbol.relocate_identity
      rw [Option.filter_some, Option.filter_some, unitOf?_commit kept named]
      split
      · rw [Option.map_some, fixed]
      · rfl

end Pool

/-! ## Linking -/

theorem Table.find?_ofList_map {Key Value Other : Type} [DecidableEq Key] (f : Value → Other)
    (additions : List (Key × Value)) (key : Key) :
    (ofList (additions.map fun entry => (entry.1, f entry.2))).find? key =
      ((ofList additions).find? key).map f := by
  simp only [find?, ofList, insertAll, empty, List.append_nil, ← List.map_reverse, List.find?_map,
    Option.map_map]
  rfl

theorem outlineSymbols_relocate {relocation : Relocation} (outline : List Outlined) :
    outlineSymbols (outline.map (·.relocate relocation)) =
      (outlineSymbols outline).map fun entry => (entry.1, entry.2.relocate relocation) := by
  simp only [outlineSymbols, List.map_map, Function.comp_def, Outlined.fullName_relocate,
    Outlined.symbol_relocate]

section Linking

variable {pool : Pool} {other : LinkedUnit} {unitName : String} {file : FileDecl}
  {imports : List (UnitId × Bool)}

/-- Imported units are registered. -/
theorem exists_of_imported (wellFormed : pool.WellFormed)
    (registered : ∀ entry ∈ imports, ∃ path, pool.unitsByName.find? path = some entry.1) :
    ∀ id ∈ imports.map (·.1), ∃ unit, pool.unitAt? id = some unit := by
  intro id member
  rcases List.mem_map.mp member with ⟨entry, listed, same⟩
  rcases registered entry listed with ⟨path, named⟩
  rcases (wellFormed.unitsByName path entry.1).mp named with ⟨unit, there, _⟩
  exact ⟨unit, same ▸ there⟩

theorem notMem_of_registered {ids : List UnitId}
    (registered : ∀ id ∈ ids, ∃ unit, pool.unitAt? id = some unit) :
    ⟨pool.units.length⟩ ∉ ids := by
  intro member
  rcases registered _ member with ⟨unit, there⟩
  exact absurd (List.getElem?_eq_some_iff.mp there).1 (Nat.lt_irrefl _)

theorem linkEnvironment_relocates (wellFormed : pool.WellFormed) (joins : other.Joins pool)
    (registered : ∀ entry ∈ imports, ∃ path, pool.unitsByName.find? path = some entry.1) :
    Environment.Relocates (pool.makeRoom other)
      (linkEnvironment pool (linkUnit pool unitName imports file) (file.outline pool.cursor))
      (linkEnvironment (pool.commit other) (linkUnit (pool.commit other) unitName imports file)
        (file.outline (pool.commit other).cursor)) := by
  have dependencies : ∀ id ∈ firstOccurrences (imports.map (·.1)),
      ∃ unit, pool.unitAt? id = some unit :=
    fun id member =>
      exists_of_imported wellFormed registered id (mem_of_mem_firstOccurrences member)
  have unseen := notMem_of_registered (wellFormed.exists_of_visible dependencies)
  intro fullName
  simp only [Environment.symbol?, linkEnvironment, linkUnit,
    Pool.visibleThrough_commit (notMem_of_registered dependencies),
    ← file.outline_relocate (pool.makeRoom_moves other), outlineSymbols_relocate,
    Table.find?_ofList_map, Option.map_or]
  rw [Pool.imported?_commit wellFormed joins unseen]

theorem linkUnit_commit (wellFormed : pool.WellFormed)
    (registered : ∀ entry ∈ imports, ∃ path, pool.unitsByName.find? path = some entry.1) :
    linkUnit (pool.commit other) unitName imports file =
      (linkUnit pool unitName imports file).relocate (pool.makeRoom other) := by
  have moves := pool.makeRoom_moves other
  have fixed (ids : List UnitId) (among : ∀ id ∈ ids, id ∈ imports.map (·.1)) :
      ids.map (pool.makeRoom other).unit = ids := by
    rw [← List.map_id ids, List.map_map]
    apply List.map_congr_left
    intro id member
    rcases exists_of_imported wellFormed registered id (among id member) with ⟨unit, there⟩
    exact (pool.makeRoom_agree other).unit id unit there
  have dependencies := fixed (firstOccurrences (imports.map (·.1)))
    fun id member => mem_of_mem_firstOccurrences member
  have publicDependencies := fixed (firstOccurrences ((imports.filter (·.2)).map (·.1))) (by
    intro id member
    rcases List.mem_map.mp (mem_of_mem_firstOccurrences member) with ⟨entry, listed, same⟩
    exact List.mem_map.mpr ⟨entry, (List.mem_filter.mp listed).1, same⟩)
  have messages :
      (messageIds pool.messages.length file.messages).map (pool.makeRoom other).message =
      messageIds (pool.commit other).messages.length file.messages :=
    messageIds_relocate moves file.messages
  have enumerations : (enumerationIds pool.enumerations.length file.enums).map
      (pool.makeRoom other).enumeration =
        enumerationIds (pool.commit other).enumerations.length file.enums :=
    enumerationIds_relocate moves file.enums
  simp only [linkUnit, SchemaUnit.relocate, dependencies, publicDependencies, messages,
    enumerations]

theorem linkedUnit_commit (wellFormed : pool.WellFormed)
    (registered : ∀ entry ∈ imports, ∃ path, pool.unitsByName.find? path = some entry.1)
    (messages entries : List Message) :
    linkedUnit (pool.commit other) unitName imports file
        (messages.map (·.relocate (pool.makeRoom other)))
        (entries.map (·.relocate (pool.makeRoom other))) =
      (linkedUnit pool unitName imports file messages entries).relocate (pool.makeRoom other) := by
  have outline := file.outline_relocate (pool.makeRoom_moves other)
  simp only [linkedUnit, LinkedUnit.relocate, linkUnit_commit wellFormed registered, ← outline,
    enumerationsOf_relocate, outlineSymbols_relocate, List.map_append, List.map_map]
  rw [← pool.makeRoom_unit other]
  rfl

/-- Behind a unit that it does not import a text is linked as without it, as long as the two
declare no common name. -/
theorem link_commit (wellFormed : pool.WellFormed) (joins : other.Joins pool)
    (importsApart : ∀ decl ∈ file.imports, decl.path ≠ other.unit.name)
    (namesApart : ∀ item ∈ file.outline pool.cursor, item.fullName ∉ other.symbols.map (·.1)) :
    link (pool.commit other) unitName file =
      (link pool unitName file).map (·.relocate (pool.makeRoom other)) := by
  have moves := pool.makeRoom_moves other
  have outline := file.outline_relocate moves
  have checked : checkOutline (pool.commit other) [] (file.outline (pool.commit other).cursor) =
      checkOutline pool [] (file.outline pool.cursor) := by
    rw [← outline]
    exact Pool.checkOutline_commit namesApart []
  have items : messagesOf (file.outline (pool.commit other).cursor) =
      (messagesOf (file.outline pool.cursor)).map (·.relocate (pool.makeRoom other)) := by
    rw [← outline, messagesOf_relocate]
  have entriesMove : ∀ count, (pool.makeRoom other).message
      ⟨pool.messages.length + (messagesOf (file.outline pool.cursor)).length + count⟩ =
        ⟨(pool.commit other).messages.length + (messagesOf (file.outline pool.cursor)).length +
          count⟩ :=
    (moves.advance (messagesOf (file.outline pool.cursor)).length 0).message
  simp only [link, Pool.resolveImports_commit importsApart, checked, items, List.length_map]
  cases resolved : resolveImports pool file.imports with
  | error refusal => rfl
  | ok imports =>
    have registered := registered_of_resolveImports resolved
    cases checkOutline pool [] (file.outline pool.cursor) with
    | error refusal => rfl
    | ok =>
      change (linkMessages _ _ _ _ _ >>= _) = Except.map _ (linkMessages _ _ _ _ _ >>= _)
      rw [← pool.makeRoom_unit other, linkMessages_relocate
        (linkEnvironment_relocates wellFormed joins registered) _ _ entriesMove]
      apply Outcome.map_bind
      rintro ⟨messages, entries⟩
      exact congrArg Except.ok (linkedUnit_commit wellFormed registered messages entries)

end Linking

end SchemaRecords.Schema
