import SchemaRecords.Proofs.Schema.IndexPositions
import SchemaRecords.Proofs.Schema.LinkableUnits

/-!
# What references are linked to

Each declared field becomes the field at the same position, and each reference in it becomes what
the full name that it means stands for.  While a unit is linked a full name is looked up among its
own declarations and among what it sees of the pool.  Behind a successful run both are in one table,
so the reference can be followed in the pool that the run leads to.
-/

namespace SchemaRecords.Schema

/-! ## Fields and their declarations -/

/-- A field that a declaration is linked to, with the type of its values, which for a map is that of
the values in its entries. -/
inductive Pool.Renders (pool : Pool) (decl : FieldDecl) (field : Field) (type : ValueType) : Prop
  | single {name : TypeName} (written : decl.type = .single name) (notMap : field.isMap = false)
      (same : field.type = type) : Renders pool decl field type
  | map {key : Scalar} {name : TypeName} {id : MessageId} {entry : Message}
      (written : decl.type = .map key name) (shape : field.shape = .map id)
      (found : pool.message? id = some entry)
      (fields : entry.fields = [.entryKey key, .entryValue type]) : Renders pool decl field type

/-- A field of a message that is linked to a declaration of the message: it goes by the same name
and number, and its reference leads to the symbol of the full name that the reference means. -/
structure Pool.LinksField (pool : Pool) (sees : String → Prop) (scope : String) (decl : FieldDecl)
    (field : Field) : Prop where
  name : field.name = decl.name
  number : field.number = decl.number
  reference : ∀ name, decl.reference? = some name → ∃ target symbol,
    Means sees scope name target ∧ pool.Names target symbol ∧ pool.Renders decl field symbol.type

/-- A field made from a declaration, where the entry of a map is among some. -/
structure FieldContext.Made (context : FieldContext) (entries : List Message) (decl : FieldDecl)
    (field : Field) : Prop where
  name : field.name = decl.name
  number : field.number = decl.number
  shape : ∃ id added, added ⊆ entries ∧ linkShape context id decl = .ok (field.shape, added)

theorem FieldContext.Made.mono {context : FieldContext} {entries more : List Message}
    {decl : FieldDecl} {field : Field} (made : context.Made entries decl field)
    (among : entries ⊆ more) : context.Made more decl field := by
  rcases made with ⟨name, number, id, added, inside, linked⟩
  exact ⟨name, number, id, added, fun _ member => among (inside member), linked⟩

/-- Linking fields appends one field for each declaration. -/
theorem linkFields_made {context : FieldContext} {next : Nat} {decls : List FieldDecl}
    {earlier fields : List Field} {entries all : List Message}
    (linked : linkFields context next earlier entries decls = .ok (fields, all)) :
    entries ⊆ all ∧ ∃ new, fields = earlier ++ new ∧ List.Forall₂ (context.Made all) decls new := by
  induction decls generalizing earlier entries with
  | nil =>
    cases linked
    exact ⟨List.Subset.refl _, [], (List.append_nil _).symm, .nil⟩
  | cons decl rest inductionHypothesis =>
    rcases Outcome.bind_eq_ok_iff.mp linked with ⟨⟨⟩, _, linked⟩
    rcases Outcome.bind_eq_ok_iff.mp linked with ⟨⟨⟩, _, linked⟩
    rcases Outcome.bind_eq_ok_iff.mp linked with ⟨⟨shape, added⟩, shaped, linked⟩
    rcases inductionHypothesis linked with ⟨among, new, rfl, each⟩
    refine ⟨fun _ member => among (List.mem_append_left _ member), _, List.append_assoc _ _ _,
      .cons ⟨rfl, rfl, _, added, fun _ member => among (List.mem_append_right _ member), shaped⟩ each⟩

/-- Linking messages makes a message for each item, with fields for its declarations. -/
theorem linkMessages_made {env : Environment} {dialect : Dialect} {unit : UnitId} {next : Nat}
    {items : List OutlinedMessage} {messages entries : List Message}
    (linked : linkMessages env dialect unit next items = .ok (messages, entries)) :
    ∀ item ∈ items, ∃ message ∈ messages, message.id = item.id ∧
      List.Forall₂ ((item.context env dialect unit).Made entries) item.decl.fields
        message.fields := by
  induction items generalizing next messages entries with
  | nil => exact fun _ impossible => nomatch impossible
  | cons item rest inductionHypothesis =>
    rcases Outcome.bind_eq_ok_iff.mp linked with ⟨⟨fields, own⟩, first, linked⟩
    rcases Outcome.bind_eq_ok_iff.mp linked with ⟨⟨others, later⟩, second, result⟩
    cases result
    rcases linkFields_made first with ⟨_, new, rfl, each⟩
    refine List.forall_mem_cons.mpr ⟨⟨_, List.mem_cons_self, rfl, ?_⟩, fun other listed => ?_⟩
    · exact each.imp fun _ _ made => made.mono (List.subset_append_left _ _)
    · rcases inductionHypothesis second other listed with ⟨message, member, place, all⟩
      exact ⟨message, List.mem_cons_of_mem _ member, place,
        all.imp fun _ _ made => made.mono (List.subset_append_right _ _)⟩

/-! ## References -/

theorem linkType_named_eq_ok_iff {env : Environment} {scope field written : String}
    {type : ValueType} :
    linkType env scope field (.named written) = .ok type ↔
      ∃ symbol, env.resolve? scope written = some symbol ∧ symbol.type = type := by
  cases resolved : env.resolve? scope written with
  | none => simp [linkType, resolved]
  | some symbol => simp [linkType, resolved]

/-- The reference of a field is resolved to the type of its values. -/
theorem exists_resolve?_of_linkShape {context : FieldContext} {id : MessageId} {decl : FieldDecl}
    {shape : Shape} {added : List Message}
    (linked : linkShape context id decl = .ok (shape, added)) {name : String}
    (isReference : decl.reference? = some name) :
    ∃ symbol, context.env.resolve? context.scope name = some symbol ∧
      ((∃ written, decl.type = .single written ∧ shape.type = symbol.type ∧
          ∀ entry, shape ≠ .map entry) ∨
        ∃ key written, decl.type = .map key written ∧ shape = .map id ∧
          added = [context.entry id decl.name key symbol.type]) := by
  unfold linkShape at linked
  unfold FieldDecl.reference? at isReference
  cases written : decl.type with
  | map key value =>
    rw [written] at linked isReference
    cases value with
    | scalar scalar => cases isReference
    | named reference =>
      cases isReference
      rcases Outcome.map_eq_ok_iff.mp linked with ⟨type, typed, result⟩
      rcases linkType_named_eq_ok_iff.mp typed with ⟨symbol, resolved, rfl⟩
      cases result
      exact ⟨symbol, resolved, Or.inr ⟨key, _, rfl, rfl, rfl⟩⟩
  | single value =>
    rw [written] at linked isReference
    cases value with
    | scalar scalar => cases isReference
    | named reference =>
      cases isReference
      rcases Outcome.map_eq_ok_iff.mp linked with ⟨type, typed, result⟩
      rcases linkType_named_eq_ok_iff.mp typed with ⟨symbol, resolved, rfl⟩
      refine ⟨symbol, resolved, Or.inl ⟨_, rfl, ?_⟩⟩
      split at result
      · cases result
        exact ⟨rfl, fun _ impossible => nomatch impossible⟩
      · cases result
        exact ⟨rfl, fun _ impossible => nomatch impossible⟩

namespace Linked

variable {pool : Pool} {unitName : String} {file : FileDecl} {imports : List (UnitId × Bool)}
  {messages entries : List Message}

/-- What is looked up during a run stands under the same name in the pool that it leads to. -/
theorem names_of_symbol? (run : Linked pool unitName file imports messages entries)
    {fullName : String} {symbol : Symbol} (found : run.environment.symbol? fullName = some symbol) :
    run.grown.Names fullName symbol := by
  apply (run.wellFormed.commit run.fits).symbols fullName symbol |>.mp
  rw [Pool.find?_symbols_commit run.fresh]
  rcases Option.or_eq_some_iff.mp found with own | ⟨_, imported⟩
  · exact Or.inl ((Table.find?_ofList_eq_some_iff run.fresh.distinct _ _).mp own)
  · exact Or.inr (Option.filter_eq_some_iff.mp imported).1

theorem linksField (run : Linked pool unitName file imports messages entries)
    (earlier : pool.PassesEarlier) {item : OutlinedMessage} {decl : FieldDecl} {field : Field}
    (made : (item.context run.environment file.dialect ⟨pool.units.length⟩).Made entries decl field) :
    run.grown.LinksField (file.Sees pool) item.fullName decl field where
  name := made.name
  number := made.number
  reference := by
    intro name isReference
    rcases made.shape with ⟨id, added, among, linked⟩
    rcases exists_resolve?_of_linkShape linked isReference with ⟨symbol, resolved, cases⟩
    rcases (Environment.resolve?_eq_some_iff
      (sees_iff_symbol? run.wellFormed earlier run.resolved)).mp resolved with
        ⟨target, means, found⟩
    refine ⟨target, symbol, means, run.names_of_symbol? found, ?_⟩
    rcases cases with ⟨written, isSingle, same, notMap⟩ | ⟨key, written, isMap, shape, isAdded⟩
    · refine .single isSingle ?_ same
      unfold Field.isMap
      split
      · exact absurd ‹_› (notMap _)
      · rfl
    · have member := among (isAdded ▸ List.mem_cons_self)
      exact .map isMap shape (run.entry_found member) rfl

/-- The message of a declaration is found under its full name, and its fields are linked to the
declared ones. -/
theorem exists_linked_message (run : Linked pool unitName file imports messages entries)
    (earlier : pool.PassesEarlier) (named : file.Named) (orderly : pool.Orderly)
    {entry : String × MessageDecl} (declared : entry ∈ file.declaredMessages) :
    ∃ message, run.grown.findMessage? entry.1 = some message ∧ message.fullName = entry.1 ∧
      List.Forall₂ (run.grown.LinksField (file.Sees pool) entry.1) entry.2.fields
        message.fields := by
  rw [← file.declarationsOf_outline pool.cursor] at declared
  rcases List.mem_map.mp declared with ⟨item, listed, rfl⟩
  have wellFormed := run.wellFormed.commit run.fits
  rcases run.message_of_item listed with ⟨message, _, found, _, fields, _, _, _, same⟩
  rcases linkMessages_made run.made item listed with ⟨other, member, sameId, each⟩
  have isOther : run.grown.message? other.id = some other := by
    have there : other ∈ run.grown.messages :=
      List.mem_append_right _ (List.mem_append_left _ member)
    rcases List.getElem?_of_mem there with ⟨index, isThere⟩
    have place : other.id = ⟨index⟩ := wellFormed.places ⟨index⟩ other isThere
    rw [place]
    exact isThere
  rw [sameId] at isOther
  cases found.symm.trans isOther
  have fullName : message.fullName = item.fullName := same ▸ rfl
  have notEntry : message.isMapEntry = false := same ▸ rfl
  refine ⟨message, ?_, fullName, each.imp fun _ _ made => run.linksField earlier made⟩
  rw [← fullName]
  exact (run.orderly named orderly).findMessage? wellFormed found notEntry

end Linked

end SchemaRecords.Schema
