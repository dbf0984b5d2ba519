import SchemaRecords.Proofs.Schema.ScopedNames
import SchemaRecords.Proofs.Schema.UnseenUnits

/-!
# Units that can be linked

Every check of the linker either lets the run go on or ends it, and none depends on what was made
of the declarations before.  So a text can be linked exactly if each of its declarations passes the
checks, whichever the order in which they are made.  Its declarations and the names that it sees
decide about that; places and descriptors do not.
-/

namespace SchemaRecords.Schema

/-! ## Declarations that pass the checks -/

/-- The type of the values of a declared field, as written. -/
def FieldType.valueName : FieldType → TypeName
  | .single name => name
  | .map _ name => name

/-- The name by which a declared field, or a value of a declared map, refers to its type. -/
def FieldDecl.reference? (decl : FieldDecl) : Option String :=
  match decl.type.valueName with
  | .scalar _ => none
  | .named name => some name

/-- The fields of a message are well numbered, told apart by number and by name, and refer to what
can be found. -/
structure FieldsLinkable (resolves : String → Prop) (decls : List FieldDecl) : Prop where
  numbers : ∀ decl ∈ decls, LegalNumber decl.number
  numbersDistinct : (decls.map (·.number)).Nodup
  namesDistinct : (decls.map (·.name)).Nodup
  references : ∀ decl ∈ decls, ∀ name, decl.reference? = some name → resolves name

/-- The imports of a text are registered, its enumerations have values, its declarations have names
of their own that are new, and the fields of all its messages can be linked. -/
structure FileDecl.Linkable (pool : Pool) (file : FileDecl) : Prop where
  imports : ∀ decl ∈ file.imports, (pool.unit? decl.path).isSome = true
  enumerations : ∀ entry ∈ file.declaredEnumerations, entry.2.values ≠ []
  namesDistinct : file.declaredNames.Nodup
  namesNew : ∀ fullName ∈ file.declaredNames, ∀ symbol, ¬ pool.Names fullName symbol
  fields : ∀ entry ∈ file.declaredMessages,
    FieldsLinkable (fun name => ∃ target, Means (file.Sees pool) entry.1 name target) entry.2.fields

theorem fieldsLinkable_cons_iff {resolves : String → Prop} {decl : FieldDecl}
    {rest : List FieldDecl} :
    FieldsLinkable resolves (decl :: rest) ↔ LegalNumber decl.number ∧
      (∀ name, decl.reference? = some name → resolves name) ∧
      (∀ other ∈ rest, decl.number ≠ other.number ∧ decl.name ≠ other.name) ∧
      FieldsLinkable resolves rest := by
  constructor
  · rintro ⟨numbers, numbersDistinct, namesDistinct, references⟩
    rw [List.forall_mem_cons] at numbers references
    rw [List.map_cons, List.nodup_cons] at numbersDistinct namesDistinct
    refine ⟨numbers.1, references.1, fun other member => ⟨fun same => ?_, fun same => ?_⟩,
      numbers.2, numbersDistinct.2, namesDistinct.2, references.2⟩
    · exact numbersDistinct.1 (same ▸ List.mem_map_of_mem member)
    · exact namesDistinct.1 (same ▸ List.mem_map_of_mem member)
  · rintro ⟨legal, reference, apart, numbers, numbersDistinct, namesDistinct, references⟩
    refine ⟨List.forall_mem_cons.mpr ⟨legal, numbers⟩,
      List.nodup_cons.mpr ⟨fun again => ?_, numbersDistinct⟩,
      List.nodup_cons.mpr ⟨fun again => ?_, namesDistinct⟩,
      List.forall_mem_cons.mpr ⟨reference, references⟩⟩
    · rcases List.mem_map.mp again with ⟨other, member, same⟩
      exact (apart other member).1 same.symm
    · rcases List.mem_map.mp again with ⟨other, member, same⟩
      exact (apart other member).2 same.symm

/-! ## Fields -/

theorem checkNumber_eq_ok_iff {scope : String} {decl : FieldDecl} :
    checkNumber scope decl = .ok () ↔ LegalNumber decl.number := by
  refine ⟨legalNumber_of_checkNumber, fun legal => ?_⟩
  rcases legal with ⟨positive, bounded, free⟩
  have inRange : ¬ (decl.number = 0 ∨ maxFieldNumber < decl.number) := by omega
  rw [checkNumber, if_neg inRange, if_neg free]

theorem checkDistinct_eq_ok_iff {scope : String} {earlier : List Field} {decl : FieldDecl} :
    checkDistinct scope earlier decl = .ok () ↔
      ∀ field ∈ earlier, field.number ≠ decl.number ∧ field.name ≠ decl.name := by
  refine ⟨distinct_of_checkDistinct, fun apart => ?_⟩
  have numbers : earlier.find? (fun field => field.number = decl.number) = none := by
    refine List.find?_eq_none.mpr fun field member => ?_
    simpa using (apart field member).1
  have names : earlier.any (fun field => field.name = decl.name) = false := by
    refine List.any_eq_false.mpr fun field member => ?_
    simpa using (apart field member).2
  simp only [checkDistinct, numbers, names, Bool.false_eq_true, if_false]

/-- A field can be given a shape exactly if its reference is resolved. -/
theorem linkShape_eq_ok_iff {context : FieldContext} {id : MessageId} {decl : FieldDecl} :
    (∃ result, linkShape context id decl = .ok result) ↔
      ∀ name, decl.reference? = some name →
        ∃ symbol, context.env.resolve? context.scope name = some symbol := by
  have typed (name : TypeName) :
      (∃ type, linkType context.env context.scope decl.name name = .ok type) ↔
        ∀ written, name = .named written →
          ∃ symbol, context.env.resolve? context.scope written = some symbol := by
    cases name with
    | scalar scalar => simp [linkType]
    | named written =>
      cases resolved : context.env.resolve? context.scope written with
      | none => simp [linkType, resolved]
      | some symbol => simp [linkType, resolved]
  have isReference (written : String) :
      decl.reference? = some written ↔ decl.type.valueName = .named written := by
    unfold FieldDecl.reference?
    cases decl.type.valueName <;> simp
  simp only [isReference, ← typed]
  unfold linkShape
  cases decl.type with
  | map key value => exact Outcome.exists_map_eq_ok_iff
  | single name => exact Outcome.exists_map_eq_ok_iff

/-- Fields can be linked behind some earlier ones exactly if they can be linked by themselves and
differ from the earlier ones. -/
theorem linkFields_eq_ok_iff {context : FieldContext} {next : Nat} {earlier : List Field}
    {entries : List Message} {decls : List FieldDecl} :
    (∃ result, linkFields context next earlier entries decls = .ok result) ↔
      FieldsLinkable (fun name => ∃ symbol, context.env.resolve? context.scope name = some symbol)
        decls ∧
      ∀ field ∈ earlier, ∀ decl ∈ decls, field.number ≠ decl.number ∧ field.name ≠ decl.name := by
  induction decls generalizing earlier entries with
  | nil =>
    refine iff_of_true ⟨_, rfl⟩ ⟨⟨?_, .nil, .nil, ?_⟩, fun _ _ _ impossible => nomatch impossible⟩
    · exact fun _ impossible => nomatch impossible
    · exact fun _ impossible => nomatch impossible
  | cons decl rest inductionHypothesis =>
    rw [fieldsLinkable_cons_iff]
    constructor
    · rintro ⟨result, linked⟩
      rcases Outcome.bind_eq_ok_iff.mp linked with ⟨⟨⟩, numbered, linked⟩
      rcases Outcome.bind_eq_ok_iff.mp linked with ⟨⟨⟩, distinct, linked⟩
      rcases Outcome.bind_eq_ok_iff.mp linked with ⟨⟨shape, added⟩, shaped, linked⟩
      rcases inductionHypothesis.mp ⟨result, linked⟩ with ⟨linkable, apart⟩
      refine ⟨⟨checkNumber_eq_ok_iff.mp numbered, linkShape_eq_ok_iff.mp ⟨_, shaped⟩, ?_, linkable⟩,
        ?_⟩
      · exact apart _ (List.mem_append_right _ List.mem_cons_self)
      · intro field member
        refine List.forall_mem_cons.mpr ⟨checkDistinct_eq_ok_iff.mp distinct field member, ?_⟩
        exact apart field (List.mem_append_left _ member)
    · rintro ⟨⟨legal, reference, apartHere, linkable⟩, apart⟩
      have numbered : checkNumber context.scope decl = .ok () := checkNumber_eq_ok_iff.mpr legal
      have distinct : checkDistinct context.scope earlier decl = .ok () :=
        checkDistinct_eq_ok_iff.mpr fun field member => apart field member decl List.mem_cons_self
      have shaped : ∃ result, linkShape context ⟨next + entries.length⟩ decl = .ok result :=
        linkShape_eq_ok_iff.mpr reference
      rcases shaped with ⟨⟨shape, added⟩, shaped⟩
      have later : ∃ result, linkFields context next
          (earlier ++ [⟨decl.name, decl.jsonName.getD (lowerCamelCase decl.name), decl.number, shape,
            decl.oneof⟩]) (entries ++ added) rest = .ok result := by
        refine inductionHypothesis.mpr ⟨linkable, forall_mem_snoc (fun field member => ?_) apartHere⟩
        exact fun other listed => apart field member other (List.mem_cons_of_mem _ listed)
      rcases later with ⟨result, linked⟩
      exact ⟨result, Outcome.bind_eq_ok_iff.mpr ⟨(), numbered, Outcome.bind_eq_ok_iff.mpr
        ⟨(), distinct, Outcome.bind_eq_ok_iff.mpr ⟨(shape, added), shaped, linked⟩⟩⟩⟩

/-- Messages can be linked exactly if the fields of each of them can. -/
theorem linkMessages_eq_ok_iff {env : Environment} {dialect : Dialect} {unit : UnitId} {next : Nat}
    {items : List OutlinedMessage} :
    (∃ result, linkMessages env dialect unit next items = .ok result) ↔
      ∀ item ∈ items, FieldsLinkable
        (fun name => ∃ symbol, env.resolve? item.fullName name = some symbol) item.decl.fields := by
  induction items generalizing next with
  | nil => exact iff_of_true ⟨_, rfl⟩ fun _ impossible => nomatch impossible
  | cons item rest inductionHypothesis =>
    have fields : (∃ result, linkFields ⟨env, dialect, unit, item.id, item.fullName⟩ next [] []
        item.decl.fields = .ok result) ↔ FieldsLinkable
          (fun name => ∃ symbol, env.resolve? item.fullName name = some symbol) item.decl.fields :=
      linkFields_eq_ok_iff.trans (and_iff_left fun _ impossible => nomatch impossible)
    rw [List.forall_mem_cons, ← fields]
    constructor
    · rintro ⟨result, linked⟩
      rcases Outcome.bind_eq_ok_iff.mp linked with ⟨⟨own, added⟩, first, linked⟩
      rcases Outcome.bind_eq_ok_iff.mp linked with ⟨others, later, _⟩
      exact ⟨⟨_, first⟩, inductionHypothesis.mp ⟨others, later⟩⟩
    · rintro ⟨⟨⟨own, added⟩, first⟩, linkable⟩
      have later : ∃ result, linkMessages env dialect unit (next + added.length) rest = .ok result :=
        inductionHypothesis.mpr linkable
      rcases later with ⟨others, later⟩
      exact ⟨_, Outcome.bind_eq_ok_iff.mpr ⟨(own, added), first,
        Outcome.bind_eq_ok_iff.mpr ⟨others, later, rfl⟩⟩⟩

/-! ## Declarations -/

/-- An outline passes exactly if its names are new and distinct and no enumeration is empty. -/
theorem checkOutline_eq_ok_iff {pool : Pool} {earlier : List String} {outline : List Outlined} :
    checkOutline pool earlier outline = .ok () ↔
      (outline.map (·.fullName)).Nodup ∧ ∀ item ∈ outline, item.fullName ∉ earlier ∧
        pool.symbols.find? item.fullName = none ∧
        ∀ enumeration, item = .enumeration enumeration → enumeration.decl.values ≠ [] := by
  refine ⟨fresh_of_checkOutline, ?_⟩
  induction outline generalizing earlier with
  | nil => exact fun _ => rfl
  | cons item rest inductionHypothesis =>
    rintro ⟨distinct, facts⟩
    rcases List.nodup_cons.mp distinct with ⟨notAgain, restDistinct⟩
    rcases List.forall_mem_cons.mp facts with ⟨⟨new, undeclared, nonempty⟩, restFacts⟩
    have free : ¬ (item.fullName ∈ earlier ∨ pool.declares item.fullName = true) := by
      rw [Pool.declares, undeclared]
      exact not_or.mpr ⟨new, Bool.false_ne_true⟩
    rw [Pool.checkOutline_cons nonempty, if_neg free]
    refine inductionHypothesis ⟨restDistinct, fun other member => ?_⟩
    rcases restFacts other member with ⟨otherNew, others⟩
    refine ⟨fun listed => ?_, others⟩
    rcases List.mem_cons.mp listed with same | before
    · exact notAgain (List.mem_map.mpr ⟨other, member, same⟩)
    · exact otherNew before

theorem checkOutline_outline_eq_ok_iff {pool : Pool} (wellFormed : pool.WellFormed)
    (file : FileDecl) (next : Cursor) :
    checkOutline pool [] (file.outline next) = .ok () ↔
      (∀ entry ∈ file.declaredEnumerations, entry.2.values ≠ []) ∧ file.declaredNames.Nodup ∧
        ∀ fullName ∈ file.declaredNames, ∀ symbol, ¬ pool.Names fullName symbol := by
  have new (fullName : String) :
      pool.symbols.find? fullName = none ↔ ∀ symbol, ¬ pool.Names fullName symbol := by
    simp only [← wellFormed.symbols, Option.eq_none_iff_forall_ne_some, ne_eq]
  have nonempty : (∀ entry ∈ file.declaredEnumerations, entry.2.values ≠ []) ↔
      ∀ item ∈ file.outline next, ∀ enumeration, item = .enumeration enumeration →
        enumeration.decl.values ≠ [] := by
    rw [← file.enumDeclarationsOf_outline next, enumDeclarationsOf, List.forall_mem_map]
    constructor
    · rintro all item member enumeration rfl
      exact all enumeration (List.mem_filterMap.mpr ⟨_, member, rfl⟩)
    · intro all enumeration listed
      rcases List.mem_filterMap.mp listed with ⟨item, member, same⟩
      cases item with
      | message message => cases same
      | enumeration other =>
        cases same
        exact all _ member enumeration rfl
  simp only [checkOutline_eq_ok_iff, (file.fullNames_perm next).nodup_iff, nonempty, ← new,
    FileDecl.mem_declaredNames next, forall_exists_index, and_imp, forall_apply_eq_imp_iff₂]
  constructor
  · rintro ⟨distinct, facts⟩
    exact ⟨fun item member => (facts item member).2.2, distinct,
      fun item member => (facts item member).2.1⟩
  · rintro ⟨values, distinct, names⟩
    exact ⟨distinct, fun item member => ⟨List.not_mem_nil, names item member, values item member⟩⟩

theorem linkMessages_outline_eq_ok_iff {pool : Pool} (wellFormed : pool.WellFormed)
    (earlier : pool.PassesEarlier) {unitName : String} {file : FileDecl}
    {imports : List (UnitId × Bool)} (resolved : resolveImports pool file.imports = .ok imports)
    (unit : UnitId) (next : Nat) :
    (∃ result, linkMessages
      (linkEnvironment pool (linkUnit pool unitName imports file) (file.outline pool.cursor))
      file.dialect unit next (messagesOf (file.outline pool.cursor)) = .ok result) ↔
        ∀ entry ∈ file.declaredMessages, FieldsLinkable
          (fun name => ∃ target, Means (file.Sees pool) entry.1 name target) entry.2.fields := by
  rw [linkMessages_eq_ok_iff, ← file.declarationsOf_outline pool.cursor, declarationsOf,
    List.forall_mem_map]
  simp only [Environment.exists_resolve?_iff (sees_iff_symbol? wellFormed earlier resolved)]

/-- A text can be linked exactly if all that it declares passes the checks. -/
theorem link_eq_ok_iff {pool : Pool} (wellFormed : pool.WellFormed) (earlier : pool.PassesEarlier)
    {unitName : String} {file : FileDecl} :
    (∃ linked, link pool unitName file = .ok linked) ↔ file.Linkable pool := by
  have registered (path : String) : (∃ unit, pool.unitsByName.find? path = some unit) ↔
      (pool.unit? path).isSome = true := by
    rw [wellFormed.unit?_isSome_iff, List.mem_map]
    constructor
    · rintro ⟨id, named⟩
      rcases (wellFormed.unitsByName _ _).mp named with ⟨unit, there, isName⟩
      exact ⟨unit, List.mem_of_getElem? there, isName⟩
    · rintro ⟨unit, member, isName⟩
      rcases List.getElem?_of_mem member with ⟨index, there⟩
      exact ⟨⟨index⟩, (wellFormed.unitsByName _ _).mpr ⟨unit, there, isName⟩⟩
  have imports : (∃ imports, resolveImports pool file.imports = .ok imports) ↔
      ∀ decl ∈ file.imports, (pool.unit? decl.path).isSome = true := by
    simp only [resolveImports_eq_ok_iff, registered]
  constructor
  · rintro ⟨linked, run⟩
    rcases Outcome.bind_eq_ok_iff.mp run with ⟨resolvedImports, resolved, run⟩
    rcases Outcome.bind_eq_ok_iff.mp run with ⟨⟨⟩, checked, run⟩
    rcases Outcome.bind_eq_ok_iff.mp run with ⟨made, isMade, _⟩
    rcases (checkOutline_outline_eq_ok_iff wellFormed file _).mp checked with
      ⟨nonempty, distinct, new⟩
    exact
      { imports := imports.mp ⟨_, resolved⟩
        enumerations := nonempty
        namesDistinct := distinct
        namesNew := new
        fields := (linkMessages_outline_eq_ok_iff wellFormed earlier resolved _ _).mp ⟨_, isMade⟩ }
  · intro linkable
    rcases imports.mpr linkable.imports with ⟨resolvedImports, resolved⟩
    have checked := (checkOutline_outline_eq_ok_iff wellFormed file pool.cursor).mpr
      ⟨linkable.enumerations, linkable.namesDistinct, linkable.namesNew⟩
    rcases (linkMessages_outline_eq_ok_iff wellFormed earlier resolved ⟨pool.units.length⟩
      (pool.messages.length + (messagesOf (file.outline pool.cursor)).length)).mpr
        linkable.fields with ⟨made, isMade⟩
    exact ⟨_, Outcome.bind_eq_ok_iff.mpr ⟨_, resolved, Outcome.bind_eq_ok_iff.mpr
      ⟨(), checked, Outcome.bind_eq_ok_iff.mpr ⟨made, isMade, rfl⟩⟩⟩⟩

/-- A text under a new name is registered exactly if it can be linked. -/
theorem Pool.addUnit_eq_ok_iff {pool : Pool} (wellFormed : pool.WellFormed)
    (earlier : pool.PassesEarlier) {name text : String} {schema : SchemaText}
    (new : pool.unit? name = none) (read : SchemaText.read text = .ok schema) :
    (∃ grown, pool.addUnit name text = .ok grown) ↔ schema.file.Linkable pool := by
  have linked : (∃ result, link pool name schema.file = .ok result) ↔ schema.file.Linkable pool :=
    link_eq_ok_iff wellFormed earlier
  rw [← linked]
  simp only [addUnit, new, Option.isSome_none, Bool.false_eq_true, if_false, read]
  cases link pool name schema.file <;> simp

end SchemaRecords.Schema
