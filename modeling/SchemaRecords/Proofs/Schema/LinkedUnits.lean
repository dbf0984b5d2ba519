import Mathlib.Data.List.Induction
import SchemaRecords.Proofs.Schema.LinkedMessages
import SchemaRecords.Proofs.Schema.OutlinePlaces

/-!
# What linking a unit yields

The descriptors of a unit refer to places that they only have once they stand behind those
of the pool.  So what linking yields is judged in the pool that it leads to: there the
outlined messages stand at the places that the outline gave them, the entries behind them,
and what a name of the unit stands for is either declared by the unit itself or was in the
pool before.
-/

namespace SchemaRecords.Schema

/-! ## Names and imports -/

/-- A checked outline brings only new names, each once, and no empty enumeration. -/
theorem fresh_of_checkOutline {pool : Pool} {earlier : List String} {outline : List Outlined}
    (checked : checkOutline pool earlier outline = .ok ()) :
    (outline.map (·.fullName)).Nodup ∧ ∀ item ∈ outline, item.fullName ∉ earlier ∧
      pool.symbols.find? item.fullName = none ∧
      ∀ enumeration, item = .enumeration enumeration → enumeration.decl.values ≠ [] := by
  induction outline generalizing earlier with
  | nil => exact ⟨List.nodup_nil, fun _ member => nomatch member⟩
  | cons item rest inductionHypothesis =>
    unfold checkOutline at checked
    split at checked
    · cases checked
    · rename_i nonempty
      split at checked
      · cases checked
      · rename_i absent
        rcases not_or.mp absent with ⟨new, undeclared⟩
        rcases inductionHypothesis checked with ⟨distinct, facts⟩
        refine ⟨List.nodup_cons.mpr ⟨fun member => ?_, distinct⟩, fun other member => ?_⟩
        · rcases List.mem_map.mp member with ⟨other, listed, same⟩
          exact (facts other listed).1 (same ▸ List.mem_cons_self)
        · rcases List.mem_cons.mp member with same | later
          · subst same
            refine ⟨new, by simpa [Pool.declares] using undeclared, fun enumeration same empty => ?_⟩
            rcases enumeration with ⟨id, fullName, name, values⟩
            cases empty
            exact nonempty id fullName name same
          · rcases facts other later with ⟨notEarlier, others⟩
            exact ⟨fun listed => notEarlier (List.mem_cons_of_mem _ listed), others⟩

theorem resolveImports_cons_eq_ok_iff {pool : Pool} {decl : ImportDecl} {rest : List ImportDecl}
    {imports : List (UnitId × Bool)} :
    resolveImports pool (decl :: rest) = .ok imports ↔
      ∃ id others, pool.unitsByName.find? decl.path = some id ∧
        resolveImports pool rest = .ok others ∧ imports = (id, decl.isPublic) :: others := by
  rw [resolveImports]
  cases pool.unitsByName.find? decl.path with
  | none => simp
  | some id =>
    simp only [Outcome.map_eq_ok_iff, Option.some.injEq, exists_and_left, exists_eq_left']
    exact exists_congr fun others => and_congr_right fun _ => eq_comm

/-- All imports are resolved exactly if all of them name registered units. -/
theorem resolveImports_eq_ok_iff {pool : Pool} {decls : List ImportDecl} :
    (∃ imports, resolveImports pool decls = .ok imports) ↔
      ∀ decl ∈ decls, ∃ unit, pool.unitsByName.find? decl.path = some unit := by
  induction decls with
  | nil => simp [resolveImports]
  | cons decl rest inductionHypothesis =>
    rw [List.forall_mem_cons, ← inductionHypothesis]
    simp only [resolveImports_cons_eq_ok_iff]
    constructor
    · rintro ⟨_, id, others, found, later, -⟩
      exact ⟨⟨id, found⟩, others, later⟩
    · rintro ⟨⟨id, found⟩, others, later⟩
      exact ⟨_, id, others, found, later, rfl⟩

/-- Resolved imports are registered units. -/
theorem registered_of_resolveImports {pool : Pool} {decls : List ImportDecl}
    {imports : List (UnitId × Bool)} (resolved : resolveImports pool decls = .ok imports) :
    ∀ entry ∈ imports, ∃ path, pool.unitsByName.find? path = some entry.1 := by
  induction decls generalizing imports with
  | nil =>
    cases resolved
    exact fun _ member => nomatch member
  | cons decl rest inductionHypothesis =>
    rcases resolveImports_cons_eq_ok_iff.mp resolved with ⟨id, others, found, later, rfl⟩
    intro entry member
    rcases List.mem_cons.mp member with same | listed
    · exact ⟨decl.path, same ▸ found⟩
    · exact inductionHypothesis later entry listed

/-- Dropping repetitions adds nothing. -/
theorem mem_of_mem_firstOccurrences {α : Type} [DecidableEq α] {elements : List α} {element : α}
    (member : element ∈ firstOccurrences elements) : element ∈ elements := by
  suffices ∀ earlier, element ∈ elements.foldl
      (fun earlier element => if element ∈ earlier then earlier else earlier ++ [element]) earlier →
      element ∈ earlier ∨ element ∈ elements by
    simpa using this [] member
  clear member
  induction elements with
  | nil => exact fun _ member => Or.inl member
  | cons first rest inductionHypothesis =>
    intro earlier member
    rcases inductionHypothesis _ member with old | later
    · dsimp only at old
      split at old
      · exact Or.inl old
      · rcases List.mem_append.mp old with old | new
        · exact Or.inl old
        · exact Or.inr (List.mem_singleton.mp new ▸ List.mem_cons_self)
    · exact Or.inr (List.mem_cons_of_mem _ later)

/-! ## A successful run -/

/-- The parts of a successful run of the linker on a new unit of a well-formed pool. -/
structure Linked (pool : Pool) (unitName : String) (file : FileDecl)
    (imports : List (UnitId × Bool)) (messages entries : List Message) : Prop where
  wellFormed : pool.WellFormed
  declared : file.Sound
  new : pool.unitsByName.find? unitName = none
  resolved : resolveImports pool file.imports = .ok imports
  checked : checkOutline pool [] (file.outline pool.cursor) = .ok ()
  made :
    linkMessages
      (linkEnvironment pool (linkUnit pool unitName imports file) (file.outline pool.cursor))
      file.dialect ⟨pool.units.length⟩
      (pool.messages.length + (messagesOf (file.outline pool.cursor)).length)
      (messagesOf (file.outline pool.cursor)) = .ok (messages, entries)

theorem linked_of_link {pool : Pool} {unitName : String} {file : FileDecl} {linked : LinkedUnit}
    (wellFormed : pool.WellFormed) (sound : file.Sound)
    (new : pool.unitsByName.find? unitName = none)
    (run : link pool unitName file = .ok linked) :
    ∃ imports messages entries, Linked pool unitName file imports messages entries ∧
      linked = linkedUnit pool unitName imports file messages entries := by
  rcases Outcome.bind_eq_ok_iff.mp run with ⟨imports, resolved, run⟩
  rcases Outcome.bind_eq_ok_iff.mp run with ⟨⟨⟩, checked, run⟩
  rcases Outcome.bind_eq_ok_iff.mp run with ⟨⟨messages, entries⟩, made, result⟩
  cases result
  exact ⟨imports, messages, entries, ⟨wellFormed, sound, new, resolved, checked, made⟩, rfl⟩

namespace Linked

variable {pool : Pool} {unitName : String} {file : FileDecl} {imports : List (UnitId × Bool)}
  {messages entries : List Message}

/-- What the names in a unit are looked up in. -/
abbrev environment (_ : Linked pool unitName file imports messages entries) : Environment :=
  linkEnvironment pool (linkUnit pool unitName imports file) (file.outline pool.cursor)

/-- The messages that a unit outlines. -/
abbrev items (_ : Linked pool unitName file imports messages entries) : List OutlinedMessage :=
  messagesOf (file.outline pool.cursor)

/-- The pool that linking leads to. -/
abbrev grown (_ : Linked pool unitName file imports messages entries) : Pool :=
  pool.commit (linkedUnit pool unitName imports file messages entries)

theorem forest (_ : Linked pool unitName file imports messages entries) :
    Forest none pool.cursor (messageIds pool.messages.length file.messages)
      (messageCounts file.messages) (file.enums.length + enumerationCounts file.messages)
      (file.outline pool.cursor) :=
  file.outline_forest pool.cursor

theorem fresh (run : Linked pool unitName file imports messages entries) :
    (linkedUnit pool unitName imports file messages entries).Fresh pool where
  unitName := run.new
  fresh := by
    intro entry member
    rcases List.mem_map.mp member with ⟨item, listed, same⟩
    cases same
    exact ((fresh_of_checkOutline run.checked).2 item listed).2.1
  distinct := by
    have names : (outlineSymbols (file.outline pool.cursor)).map (·.1) =
        (file.outline pool.cursor).map (·.fullName) := by
      rw [outlineSymbols, List.map_map]
      rfl
    rw [linkedUnit, names]
    exact (fresh_of_checkOutline run.checked).1

theorem kept (run : Linked pool unitName file imports messages entries) : run.grown.Extends pool :=
  Pool.commit_extends run.fresh

theorem sound (run : Linked pool unitName file imports messages entries) :
    MessagesSound run.environment file.dialect ⟨pool.units.length⟩
      (pool.messages.length + run.items.length) run.items messages entries := by
  refine linkMessages_sound (fun item member => ?_) run.made
  rcases List.mem_filterMap.mp member with ⟨outlined, listed, same⟩
  cases outlined with
  | enumeration enumeration => cases same
  | message message =>
    cases same
    exact FileDecl.outline_sound run.declared _ _ listed

/-! ## Where descriptors stand -/

/-- The message that an outlined message is linked to stands at its place. -/
theorem message_of_item (run : Linked pool unitName file imports messages entries)
    {item : OutlinedMessage} (member : item ∈ run.items) :
    ∃ message ∈ messages, run.grown.message? item.id = some message ∧
      item.LinksTo run.environment file.dialect ⟨pool.units.length⟩ entries message := by
  rcases List.mem_iff_getElem?.mp member with ⟨position, listed⟩
  have inRange := (List.getElem?_eq_some_iff.mp listed).1
  rw [← run.sound.length] at inRange
  have found := List.getElem?_eq_getElem inRange
  refine ⟨messages[position], List.getElem_mem inRange, ?_,
    run.sound.messages position item _ listed found⟩
  rw [Pool.message?_commit, run.forest.id_of_getElem? listed]
  refine Or.inr ⟨position, rfl, ?_⟩
  exact Pool.getElem?_append_iff.mpr (Or.inl found)

theorem item_of_message (run : Linked pool unitName file imports messages entries)
    {position : Nat} {message : Message} (found : messages[position]? = some message) :
    ∃ item ∈ run.items, item.id = ⟨pool.messages.length + position⟩ ∧
      item.LinksTo run.environment file.dialect ⟨pool.units.length⟩ entries message := by
  have inRange := (List.getElem?_eq_some_iff.mp found).1
  rw [run.sound.length] at inRange
  have listed := List.getElem?_eq_getElem inRange
  exact ⟨_, List.getElem_mem inRange, run.forest.id_of_getElem? listed,
    run.sound.messages position _ message listed found⟩

theorem entry_found (run : Linked pool unitName file imports messages entries) {entry : Message}
    (member : entry ∈ entries) : run.grown.message? entry.id = some entry := by
  rcases List.mem_iff_getElem?.mp member with ⟨position, found⟩
  rw [Pool.message?_commit, run.sound.entryPlaces position entry found]
  refine Or.inr ⟨messages.length + position, ?_, ?_⟩
  · rw [run.sound.length, Nat.add_assoc]
  · exact Pool.getElem?_append_iff.mpr (Or.inr ⟨position, rfl, found⟩)

theorem unit_found (run : Linked pool unitName file imports messages entries) :
    run.grown.unitAt? ⟨pool.units.length⟩ = some (linkUnit pool unitName imports file) :=
  (Pool.unitAt?_commit _ _).mpr (Or.inr ⟨rfl, rfl⟩)

/-- Every place for an enumeration that the outline gave out is taken. -/
theorem enumeration_found (run : Linked pool unitName file imports messages entries)
    {id : EnumerationId}
    (inRange : id.index < pool.enumerations.length +
      (file.enums.length + enumerationCounts file.messages)) :
    ∃ enumeration, run.grown.enumeration? id = some enumeration := by
  have length : run.grown.enumerations.length = pool.enumerations.length +
      (file.enums.length + enumerationCounts file.messages) := by
    simp only [Pool.commit, linkedUnit, List.length_append, List.length_map,
      run.forest.length_enumerationsOf]
  exact ⟨_, List.getElem?_eq_getElem (length ▸ inRange)⟩

/-! ## What names stand for -/

theorem mem_outlineSymbols_message {outline : List Outlined} {fullName : String} {id : MessageId} :
    (fullName, Symbol.message id) ∈ outlineSymbols outline ↔
      ∃ item ∈ messagesOf outline, item.id = id ∧ item.fullName = fullName := by
  simp only [outlineSymbols, List.mem_map, messagesOf, List.mem_filterMap]
  constructor
  · rintro ⟨outlined, member, same⟩
    cases outlined with
    | enumeration enumeration => cases same
    | message item =>
      cases same
      exact ⟨item, ⟨_, member, rfl⟩, rfl, rfl⟩
  · rintro ⟨item, ⟨outlined, member, same⟩, place, name⟩
    cases outlined with
    | enumeration enumeration => cases same
    | message other =>
      cases same
      exact ⟨_, member, Prod.ext name (congrArg Symbol.message place)⟩

theorem mem_outlineSymbols_enumeration {outline : List Outlined} {fullName : String}
    {id : EnumerationId} :
    (fullName, Symbol.enumeration id) ∈ outlineSymbols outline ↔
      ∃ item ∈ enumerationsOf outline, item.id = id ∧ item.fullName = fullName := by
  simp only [outlineSymbols, List.mem_map, enumerationsOf, List.mem_filterMap]
  constructor
  · rintro ⟨outlined, member, same⟩
    cases outlined with
    | message item => cases same
    | enumeration item =>
      cases same
      exact ⟨item, ⟨_, member, rfl⟩, rfl, rfl⟩
  · rintro ⟨item, ⟨outlined, member, same⟩, place, name⟩
    cases outlined with
    | message other => cases same
    | enumeration other =>
      cases same
      exact ⟨_, member, Prod.ext name (congrArg Symbol.enumeration place)⟩

/-- What a unit itself declares is in the pool that linking leads to. -/
theorem nameable_of_declared (run : Linked pool unitName file imports messages entries)
    (fullName : String) {symbol : Symbol}
    (declared : (fullName, symbol) ∈ outlineSymbols (file.outline pool.cursor)) :
    run.grown.Nameable symbol.type := by
  cases symbol with
  | message id =>
    rcases mem_outlineSymbols_message.mp declared with ⟨item, member, place, _⟩
    rcases run.message_of_item member with ⟨message, _, found, _, _, _, _, _, itself⟩
    exact ⟨message, place ▸ found, itself ▸ rfl⟩
  | enumeration id =>
    rcases mem_outlineSymbols_enumeration.mp declared with ⟨item, member, place, _⟩
    rcases List.mem_iff_getElem?.mp member with ⟨position, found⟩
    have inRange := (List.getElem?_eq_some_iff.mp found).1
    rw [run.forest.length_enumerationsOf] at inRange
    apply run.enumeration_found
    rw [← place, run.forest.enumerationId_of_getElem? found]
    exact Nat.add_lt_add_left inRange _

/-- A type that can be written is in the pool that linking leads to. -/
theorem nameable_of_knows (run : Linked pool unitName file imports messages entries)
    {type : ValueType} (known : run.environment.Knows type) : run.grown.Nameable type := by
  rcases known with ⟨scalar, same⟩ | ⟨fullName, symbol, found, same⟩
  · rw [same]
    trivial
  · rw [same]
    rcases Option.or_eq_some_iff.mp found with own | ⟨_, imported⟩
    · apply run.nameable_of_declared fullName
      exact (Table.find?_ofList_eq_some_iff run.fresh.distinct _ _).mp own
    · have registered := (Option.filter_eq_some_iff.mp imported).1
      exact run.kept.nameable ((run.wellFormed.symbols fullName symbol).mp registered).nameable

/-! ## Descriptors -/

section Fields

variable {item : OutlinedMessage} {next : Nat} {fields : List Field} {own : List Message}

theorem nameable_of_field (run : Linked pool unitName file imports messages entries)
    (sound : FieldsSound (item.context run.environment file.dialect ⟨pool.units.length⟩) next
      item.decl.oneofs.length fields own) {field : Field} (member : field ∈ fields)
    (notMap : field.isMap = false) : run.grown.Nameable field.type := by
  have allowed := sound.shapes field member
  unfold Field.isMap at notMap
  unfold Field.type
  cases shape : field.shape with
  | singular type explicit =>
    rw [shape] at allowed
    exact run.nameable_of_knows allowed
  | repeated type packed =>
    rw [shape] at allowed
    exact run.nameable_of_knows allowed.1
  | map id =>
    rw [shape] at notMap
    cases notMap

theorem entry_of_field (run : Linked pool unitName file imports messages entries)
    (sound : FieldsSound (item.context run.environment file.dialect ⟨pool.units.length⟩) next
      item.decl.oneofs.length fields own) (among : own ⊆ entries) {field : Field}
    (member : field ∈ fields) {id : MessageId} (shape : field.shape = .map id) :
    ∃ entry, run.grown.message? id = some entry ∧ entry.IsEntry := by
  have allowed := sound.shapes field member
  rw [shape] at allowed
  rcases allowed with ⟨entry, isOwn, place⟩
  exact ⟨entry, place ▸ run.entry_found (among isOwn), (sound.entries entry isOwn).isEntry⟩

theorem hasType_of_field (run : Linked pool unitName file imports messages entries)
    (sound : FieldsSound (item.context run.environment file.dialect ⟨pool.units.length⟩) next
      item.decl.oneofs.length fields own) (among : own ⊆ entries) {field : Field}
    (member : field ∈ fields) : run.grown.HasType field.type := by
  by_cases isMap : field.isMap = true
  · rw [Field.isMap] at isMap
    split at isMap
    · rename_i id shape
      rcases run.entry_of_field sound among member shape with ⟨entry, found, _⟩
      rw [Field.type, shape]
      exact ⟨entry, found⟩
    · cases isMap
  · exact (run.nameable_of_field sound member (Bool.eq_false_iff.mpr isMap)).hasType

end Fields

/-- The parent of an outlined message stands before it and lists it. -/
theorem parent_of_item (run : Linked pool unitName file imports messages entries)
    {item : OutlinedMessage} (listed : item ∈ run.items) {id : MessageId}
    (isParent : item.parent = some id) :
    id.index < item.id.index ∧ ∃ outer, run.grown.message? id = some outer ∧
      outer.isMapEntry = false ∧ item.id ∈ outer.nestedMessages := by
  rcases run.forest.parents item listed with ⟨none, _⟩ | ⟨outer, outerListed, same, child⟩
  · rw [none] at isParent
    cases isParent
  rcases run.forest.earlier item listed with none | ⟨other, same, earlier⟩
  · rw [none] at isParent
    cases isParent
  rw [isParent] at same
  cases same
  rcases run.message_of_item outerListed with ⟨message, _, found, _, _, _, _, _, itself⟩
  rw [isParent] at same
  cases same
  exact ⟨earlier, message, found, itself ▸ rfl, itself ▸ child⟩

theorem message_wellFormed (run : Linked pool unitName file imports messages entries)
    {message : Message} (member : message ∈ messages) : message.WellFormed run.grown := by
  rcases List.mem_iff_getElem?.mp member with ⟨position, found⟩
  rcases run.item_of_message found with ⟨item, listed, _, next, fields, own, sound, among, same⟩
  subst same
  exact
    { indexed := sound.indexed _
      unit := ⟨_, run.unit_found⟩
      types := fun _ member => run.hasType_of_field sound among member
      nameable := fun _ member notMap => run.nameable_of_field sound member notMap
      packable := by
        intro field member type shape
        have allowed := sound.shapes field member
        rw [shape] at allowed
        exact allowed.2 rfl
      entries := fun _ member _ shape => run.entry_of_field sound among member shape
      oneofsSingle := sound.oneofsSingle
      parent := by
        intro id isParent
        rcases run.parent_of_item listed isParent with ⟨earlier, outer, found, notEntry, child⟩
        exact ⟨earlier, outer, found, notEntry, fun _ => child⟩
      root := by
        intro noParent
        have noParent : item.parent = none := noParent
        rcases run.forest.parents item listed with ⟨_, isRoot⟩ | ⟨outer, _, same, _⟩
        · exact ⟨rfl, _, run.unit_found,
            List.count_eq_one_of_mem (messageIds_nodup file.messages _) isRoot⟩
        · rw [noParent] at same
          cases same
      nested := by
        intro id child
        rcases run.forest.nested item listed id child with ⟨inner, innerListed, place, itsParent⟩
        rcases run.message_of_item innerListed with ⟨message, _, found, _, _, _, _, _, itself⟩
        exact ⟨message, place ▸ found, itself ▸ rfl, itself ▸ itsParent⟩
      nestedDistinct := run.forest.nestedNodup item listed
      nestedEnumerations := fun id child =>
        run.enumeration_found (run.forest.nestedEnumerations item listed id child) }

theorem entry_wellFormed (run : Linked pool unitName file imports messages entries)
    {entry : Message} (member : entry ∈ entries) : entry.WellFormed run.grown := by
  rcases List.mem_iff_getElem?.mp member with ⟨position, found⟩
  have place := run.sound.entryPlaces position entry found
  rcases run.sound.entries entry member with ⟨item, listed, made⟩
  have indexed := made.indexed
  rcases made with ⟨id, field, key, type, _, known, same⟩
  subst same
  have parts : ∀ part ∈ [Field.entryKey key, Field.entryValue type], ∃ type,
      part.shape = .singular type false ∧ part.oneof = none ∧ run.grown.Nameable type := by
    intro part member
    rcases List.mem_cons.mp member with first | rest
    · exact ⟨.scalar key, first ▸ rfl, first ▸ rfl, trivial⟩
    · rw [List.mem_singleton.mp rest]
      exact ⟨type, rfl, rfl, run.nameable_of_knows known⟩
  exact
    { indexed := indexed
      unit := ⟨_, run.unit_found⟩
      types := by
        intro part member
        rcases parts part member with ⟨type, shape, _, known⟩
        rw [Field.type, shape]
        exact known.hasType
      nameable := by
        intro part member _
        rcases parts part member with ⟨type, shape, _, known⟩
        rw [Field.type, shape]
        exact known
      packable := by
        intro part member itsType repeated
        rcases parts part member with ⟨type, shape, _⟩
        rw [shape] at repeated
        cases repeated
      entries := by
        intro part member id isMap
        rcases parts part member with ⟨type, shape, _⟩
        rw [shape] at isMap
        cases isMap
      oneofsSingle := by
        intro part member inOneof
        rcases parts part member with ⟨type, _, none, _⟩
        rw [none] at inOneof
        cases inOneof
      parent := by
        intro outer isParent
        cases isParent
        rcases run.message_of_item listed with ⟨message, _, found, _, _, _, _, _, itself⟩
        have before := (run.forest.le_id listed).2
        refine ⟨?_, message, found, itself ▸ rfl, fun notEntry => nomatch notEntry⟩
        rw [← run.forest.length_messagesOf] at before
        have there : id = ⟨pool.messages.length + run.items.length + position⟩ := place
        rw [there]
        exact Nat.lt_of_lt_of_le before (Nat.le_add_right _ _)
      root := fun noParent => nomatch noParent
      nested := fun _ member => nomatch member
      nestedDistinct := List.nodup_nil
      nestedEnumerations := fun _ member => nomatch member }

theorem enumeration_wellFormed (run : Linked pool unitName file imports messages entries)
    {enumeration : Enumeration}
    (member : enumeration ∈
      (linkedUnit pool unitName imports file messages entries).enumerations) :
    enumeration.WellFormed run.grown := by
  rcases List.mem_map.mp member with ⟨item, listed, same⟩
  rcases List.mem_filterMap.mp listed with ⟨outlined, inOutline, isItem⟩
  cases outlined with
  | message message => cases isItem
  | enumeration other =>
    cases isItem
    subst same
    refine ⟨⟨_, run.unit_found⟩, ?_, fun value declared => ?_⟩
    · exact ((fresh_of_checkOutline run.checked).2 _ inOutline).2.2 _ rfl
    · have small := FileDecl.outline_sound run.declared _ _ inOutline value declared
      simpa [Parser.isInt32] using small

theorem unit_wellFormed (run : Linked pool unitName file imports messages entries) :
    (linkUnit pool unitName imports file).WellFormed run.grown ⟨pool.units.length⟩ where
  dependencies := by
    intro other member
    rcases List.mem_map.mp (mem_of_mem_firstOccurrences member) with ⟨entry, listed, same⟩
    rcases registered_of_resolveImports run.resolved entry listed with ⟨path, registered⟩
    rcases (run.wellFormed.unitsByName path entry.1).mp registered with ⟨unit, found, _⟩
    exact ⟨unit, run.kept.unit _ unit (same ▸ found)⟩
  publicDependencies := by
    intro other member
    rcases List.mem_map.mp (mem_of_mem_firstOccurrences member) with ⟨entry, listed, same⟩
    rcases registered_of_resolveImports run.resolved entry (List.mem_filter.mp listed).1 with
      ⟨path, registered⟩
    rcases (run.wellFormed.unitsByName path entry.1).mp registered with ⟨unit, found, _⟩
    exact ⟨unit, run.kept.unit _ unit (same ▸ found)⟩
  messages := by
    intro root member
    rcases run.forest.roots root member with ⟨item, listed, place, noParent⟩
    rcases run.message_of_item listed with ⟨message, _, found, _, _, _, _, _, same⟩
    exact ⟨message, place ▸ found, same ▸ rfl, same ▸ noParent, same ▸ rfl⟩
  enumerations := by
    intro root member
    rcases mem_enumerationIds member with ⟨after, before⟩
    have inRange : root.index < pool.enumerations.length +
        (file.enums.length + enumerationCounts file.messages) := by
      omega
    rcases run.enumeration_found inRange with ⟨enumeration, found⟩
    refine ⟨enumeration, found, ?_⟩
    rcases (Pool.enumeration?_commit _ _).mp found with old | ⟨position, _, new⟩
    · have := (List.getElem?_eq_some_iff.mp old).1
      omega
    · rcases List.mem_map.mp (List.mem_of_getElem? new) with ⟨item, _, same⟩
      exact same ▸ rfl

/-- The descriptors that linking yields fit behind those of the pool. -/
theorem fits (run : Linked pool unitName file imports messages entries) :
    (linkedUnit pool unitName imports file messages entries).Fits pool where
  toFresh := run.fresh
  places := by
    intro position message found
    rcases Pool.getElem?_append_iff.mp found with linked | ⟨beyond, there, entry⟩
    · rcases run.item_of_message linked with ⟨item, _, place, _, _, _, _, _, same⟩
      rw [same]
      exact place
    · rw [run.sound.entryPlaces beyond message entry, there, run.sound.length, Nat.add_assoc]
  messages := by
    intro message member
    rcases List.mem_append.mp member with linked | entry
    · exact run.message_wellFormed linked
    · exact run.entry_wellFormed entry
  enumerations := fun _ member => run.enumeration_wellFormed member
  unit := run.unit_wellFormed
  messageSymbols := by
    intro fullName id
    rw [linkedUnit, mem_outlineSymbols_message]
    constructor
    · rintro ⟨item, listed, place, name⟩
      rcases run.message_of_item listed with ⟨message, member, _, _, _, _, _, _, same⟩
      exact ⟨message, List.mem_append_left _ member, same ▸ place, same ▸ name, same ▸ rfl⟩
    · rintro ⟨message, member, place, name, notEntry⟩
      rcases List.mem_append.mp member with linked | entry
      · rcases List.mem_iff_getElem?.mp linked with ⟨position, found⟩
        rcases run.item_of_message found with ⟨item, listed, _, _, _, _, _, _, same⟩
        subst same
        exact ⟨item, listed, place, name⟩
      · rcases run.sound.entries message entry with ⟨_, _, made⟩
        rw [made.isEntry.1] at notEntry
        cases notEntry
  enumerationSymbols := by
    intro fullName id
    rw [linkedUnit, mem_outlineSymbols_enumeration]
    constructor
    · rintro ⟨item, listed, place, name⟩
      rcases List.mem_iff_getElem?.mp listed with ⟨position, found⟩
      refine ⟨position, item.link ⟨pool.units.length⟩, ?_, ?_, name⟩
      · rw [List.getElem?_map, found]
        rfl
      · exact place.symm.trans (run.forest.enumerationId_of_getElem? found)
    · rintro ⟨position, enumeration, found, place, name⟩
      rw [List.getElem?_map, Option.map_eq_some_iff] at found
      rcases found with ⟨item, listed, same⟩
      subst same
      exact ⟨item, List.mem_of_getElem? listed,
        (run.forest.enumerationId_of_getElem? listed).trans place.symm, name⟩

end Linked

/-! ## Registration -/

/-- A successful registration links a text that could be read, under a new name. -/
theorem Pool.linked_of_addUnit {pool grown : Pool} {name text : String}
    (wellFormed : pool.WellFormed) (added : pool.addUnit name text = .ok grown) :
    ∃ schema imports messages entries,
      SchemaText.read text = .ok schema ∧
        ∃ run : Linked pool name schema.file imports messages entries,
          link pool name schema.file = .ok (linkedUnit pool name imports schema.file messages entries) ∧
            grown = run.grown := by
  unfold addUnit at added
  split at added
  · cases added
  · rename_i new
    split at added
    · cases added
    · rename_i schema read
      split at added
      · cases added
      · rename_i linked run
        cases added
        have unregistered : pool.unitsByName.find? name = none := by
          cases found : pool.unitsByName.find? name with
          | none => rfl
          | some id =>
            rcases (wellFormed.unitsByName name id).mp found with ⟨unit, there, _⟩
            rw [unit?, found, Option.bind_some, there] at new
            exact absurd rfl new
        rcases linked_of_link wellFormed (SchemaText.sound_of_read read) unregistered run with
          ⟨imports, messages, entries, parts, same⟩
        subst same
        exact ⟨schema, imports, messages, entries, read, parts, run, rfl⟩

/-- What a successful registration does to a well-formed pool. -/
theorem Pool.addUnit_cases {pool grown : Pool} {name text : String} (wellFormed : pool.WellFormed)
    (added : pool.addUnit name text = .ok grown) :
    ∃ schema linked, SchemaText.read text = .ok schema ∧
      link pool name schema.file = .ok linked ∧ linked.Fits pool ∧ grown = pool.commit linked := by
  rcases linked_of_addUnit wellFormed added with
    ⟨schema, imports, messages, entries, read, parts, run, same⟩
  exact ⟨schema, _, read, run, parts.fits, same⟩

/-- A successful registration puts its name behind those of all other units. -/
theorem Pool.names_of_addUnit {pool grown : Pool} {name text : String}
    (wellFormed : pool.WellFormed) (added : pool.addUnit name text = .ok grown) :
    grown.units.map (·.name) = pool.units.map (·.name) ++ [name] := by
  rcases linked_of_addUnit wellFormed added with ⟨_, _, _, _, _, run, _, same⟩
  rw [same, Linked.grown, commit, List.map_append]
  rfl

/-- An attempt to register a unit preserves well-formedness. -/
theorem Pool.WellFormed.register {pool : Pool} (wellFormed : pool.WellFormed) (name text : String) :
    (pool.register name text).WellFormed := by
  unfold Pool.register
  split
  · rename_i grown added
    rcases addUnit_cases wellFormed added with ⟨_, linked, _, _, fits, same⟩
    exact same ▸ wellFormed.commit fits
  · exact wellFormed

/-- An attempt to register a unit moves and renames nothing. -/
theorem Pool.WellFormed.register_extends {pool : Pool} (wellFormed : pool.WellFormed)
    (name text : String) : (pool.register name text).Extends pool := by
  unfold Pool.register
  split
  · rename_i grown added
    rcases addUnit_cases wellFormed added with ⟨_, linked, _, _, fits, same⟩
    exact same ▸ commit_extends fits.toFresh
  · exact .refl pool

/-- By induction on the attempts, from the empty pool on. -/
theorem Pool.wellFormed_registerAll (attempts : List (String × String)) :
    (registerAll attempts).WellFormed := by
  suffices ∀ pool : Pool, pool.WellFormed →
      (attempts.foldl (fun pool attempt => pool.register attempt.1 attempt.2) pool).WellFormed from
    this empty wellFormed_empty
  induction attempts with
  | nil => exact fun _ wellFormed => wellFormed
  | cons attempt rest inductionHypothesis =>
    exact fun pool wellFormed => inductionHypothesis _ (wellFormed.register attempt.1 attempt.2)

theorem Pool.registerAll_concat (attempts : List (String × String)) (attempt : String × String) :
    registerAll (attempts ++ [attempt]) = (registerAll attempts).register attempt.1 attempt.2 :=
  List.foldl_concat ..

/-- What holds of the empty pool and is preserved by every registration holds of any pool. -/
theorem Pool.registerAll_induction {invariant : Pool → Prop} (start : invariant empty)
    (step : ∀ {pool grown : Pool} {name text : String}, pool.WellFormed → invariant pool →
      pool.addUnit name text = .ok grown → invariant grown) (attempts : List (String × String)) :
    invariant (registerAll attempts) := by
  induction attempts using List.reverseRecOn with
  | nil => exact start
  | append_singleton attempts attempt inductionHypothesis =>
    rw [registerAll_concat, register]
    split
    · rename_i grown added
      exact step (wellFormed_registerAll attempts) inductionHypothesis added
    · exact inductionHypothesis

/-- Later attempts move and rename nothing, by induction on them. -/
theorem Pool.registerAll_extends (attempts later : List (String × String)) :
    (registerAll (attempts ++ later)).Extends (registerAll attempts) := by
  induction later using List.reverseRecOn with
  | nil =>
    rw [List.append_nil]
    exact .refl _
  | append_singleton later attempt inductionHypothesis =>
    rw [← List.append_assoc, registerAll_concat]
    exact ((wellFormed_registerAll _).register_extends _ _).trans inductionHypothesis

end SchemaRecords.Schema
