import SchemaRecords.Proofs.Registration
import SchemaRecords.Proofs.Schema.GivenCharacters
import SchemaRecords.Proofs.Schema.SwappedUnits

/-!
# The order of registrations

Two texts that do not import each other can be registered in either order.  Their descriptors
end up at different places, and so do the references to them, but no answer depends on places:
look-ups, index paths, and the reading and writing of payloads all stay the same.
-/

namespace SchemaRecords

open SchemaRecords.Schema
open SchemaRecords.Payload

variable {relocation back : Relocation} {pool other : Pool}

/-! ## Index paths -/

theorem Schema.Pool.LeadsTo.embeds (embeds : Pool.Embeds relocation pool other)
    {unitName : String} {positions : List Nat} {message : Message}
    (reached : pool.LeadsTo unitName positions message) :
    other.LeadsTo unitName positions (message.relocate relocation) := by
  induction reached with
  | root known listed found =>
    refine .root (embeds.unit? known) ?_ (embeds.message _ _ found)
    rw [SchemaUnit.relocate, List.getElem?_map, listed, Option.map_some]
  | inside _ listed found inductionHypothesis =>
    refine inductionHypothesis.inside ?_ (embeds.message _ _ found)
    rw [Message.nestedMessages_relocate, List.getElem?_map, listed, Option.map_some]

theorem Schema.Pool.messageIndex?_embeds (wellFormed : pool.WellFormed) (orderly : pool.Orderly)
    (otherWellFormed : other.WellFormed) (embeds : Embeds relocation pool other) {name : String}
    {message : Message} (found : pool.findMessage? name = some message) :
    other.messageIndex? name = pool.messageIndex? name := by
  rcases wellFormed.exists_of_findMessage? found with ⟨⟨place⟩, there, notEntry⟩
  rcases orderly.exists_leadsTo wellFormed place there notEntry with
    ⟨unit, positions, _, _, reached⟩
  rw [messageIndex?, messageIndex?, found, embeds.findMessage? found, Option.bind_some,
    Option.bind_some, reached.indexPath? wellFormed,
    (reached.embeds embeds).indexPath? otherWellFormed]

/-! ## All answers -/

/-- Two pools that give the same answers, up to the places of what they answer with. -/
structure SameAnswers (relocation : Relocation) (pool other : Pool) : Prop where
  message : ∀ name,
    other.findMessage? name = (pool.findMessage? name).map (·.relocate relocation)
  enumeration : ∀ name,
    other.findEnumeration? name = (pool.findEnumeration? name).map (·.relocate relocation)
  unit : ∀ name, other.unit? name = (pool.unit? name).map (·.relocate relocation)
  messagesIn : ∀ name, other.messagesIn? name =
    (pool.messagesIn? name).map fun messages => messages.map (·.relocate relocation)
  resolve : ∀ name path,
    other.resolve name path = (pool.resolve name path).map (·.relocate relocation)
  messageIndex : ∀ name, other.messageIndex? name = pool.messageIndex? name
  decode : ∀ options name payload,
    decode other options name payload = decode pool options name payload
  encode : ∀ name document, encode other name document = encode pool name document
  encodeText : ∀ name text, encodeText other name text = encodeText pool name text

/-- What leads to an answer in one pool leads to one in the other, so that it leads to none in the
other if it leads to none in the first. -/
theorem eq_map_of_embedded {α : Type} {answer otherAnswer : Option α} {forth comeBack : α → α}
    (there : ∀ value, answer = some value → otherAnswer = some (forth value))
    (andBack : ∀ value, otherAnswer = some value → answer = some (comeBack value)) :
    otherAnswer = answer.map forth := by
  cases isAnswer : answer with
  | some value => exact there value isAnswer
  | none =>
    cases isOther : otherAnswer with
    | none => rfl
    | some value => cases isAnswer.symm.trans (andBack value isOther)

/-- Pools that are embedded in each other give the same answers. -/
theorem sameAnswers_of_embeds (wellFormed : pool.WellFormed) (orderly : pool.Orderly)
    (otherWellFormed : other.WellFormed) (embeds : Pool.Embeds relocation pool other)
    (embedsBack : Pool.Embeds back other pool) : SameAnswers relocation pool other := by
  have messages (name : String) :
      other.findMessage? name = (pool.findMessage? name).map (·.relocate relocation) :=
    eq_map_of_embedded (fun _ found => embeds.findMessage? found)
      fun _ found => embedsBack.findMessage? found
  have units (name : String) : other.unit? name = (pool.unit? name).map (·.relocate relocation) :=
    eq_map_of_embedded (fun _ found => embeds.unit? found) fun _ found => embedsBack.unit? found
  have encodes (name : String) (document : Json.Value) :
      Payload.encode other name document = Payload.encode pool name document := by
    cases found : pool.findMessage? name with
    | none => simp only [Payload.encode, messages, found, Option.map_none]
    | some message =>
      exact (encode_embeds wellFormed embeds found (embeds.findMessage? found) document).same
  constructor
  case message => exact messages
  case enumeration =>
    intro name
    exact eq_map_of_embedded (fun _ found => embeds.findEnumeration? found)
      fun _ found => embedsBack.findEnumeration? found
  case unit => exact units
  case messagesIn =>
    intro name
    cases found : pool.unit? name with
    | none => simp only [Pool.messagesIn?, units, found, Option.map_none]
    | some unit => exact Pool.messagesIn?_embeds wellFormed embeds found
  case resolve =>
    intro name path
    cases found : pool.unit? name with
    | none =>
      simp only [Pool.resolve, units, found, Option.map_none]
      rfl
    | some unit => exact Pool.resolve_embeds wellFormed embeds found path
  case messageIndex =>
    intro name
    cases found : pool.findMessage? name with
    | none => simp only [Pool.messageIndex?, messages, found, Option.map_none, Option.bind_none]
    | some message =>
      exact Pool.messageIndex?_embeds wellFormed orderly otherWellFormed embeds found
  case decode =>
    intro options name payload
    cases found : pool.findMessage? name with
    | none => simp only [Payload.decode, messages, found, Option.map_none]
    | some message =>
      exact (decode_embeds wellFormed embeds options found (embeds.findMessage? found) payload).same
  case encode => exact encodes
  case encodeText =>
    intro name text
    simp only [Payload.encodeText, messages, encodes]
    cases pool.findMessage? name <;> rfl

/-! ## Two texts -/

/-- The names of the units that a text imports. -/
def Schema.importedNames (text : String) : List String :=
  match SchemaText.read text with
  | .error _ => []
  | .ok schema => schema.file.imports.map (·.path)

theorem Schema.importedNames_of_read {text : String} {schema : SchemaText}
    (read : SchemaText.read text = .ok schema) :
    importedNames text = schema.file.imports.map (·.path) := by
  rw [importedNames, read]

/-- All imports of a text that was linked are registered. -/
theorem Schema.ne_of_resolveImports {decls : List ImportDecl} {imports : List (UnitId × Bool)}
    (resolved : resolveImports pool decls = .ok imports) {unitName : String}
    (new : pool.unitsByName.find? unitName = none) : ∀ decl ∈ decls, decl.path ≠ unitName := by
  intro decl member named
  rcases resolveImports_eq_ok_iff.mp ⟨_, resolved⟩ decl member with ⟨id, found⟩
  rw [named, new] at found
  cases found

/-- A text that can be linked under a new name can be registered. -/
theorem Schema.Pool.addUnit_of_link {name text : String} {schema : SchemaText}
    {linked : LinkedUnit} (new : pool.unitsByName.find? name = none)
    (read : SchemaText.read text = .ok schema) (run : link pool name schema.file = .ok linked) :
    pool.addUnit name text = .ok (pool.commit linked) := by
  simp only [addUnit, Pool.unit?, new, Option.bind_none, Option.isSome_none, read, run]
  rfl

namespace Schema.Linked

variable {firstName secondName : String} {firstFile secondFile : FileDecl}
  {firstImports secondImports behindImports : List (UnitId × Bool)}
  {firstMessages firstEntries secondMessages secondEntries behindMessages behindEntries :
    List Message}

/-- The unit that linking yields. -/
abbrev result (_ : Linked pool firstName firstFile firstImports firstMessages firstEntries) :
    LinkedUnit :=
  linkedUnit pool firstName firstImports firstFile firstMessages firstEntries

theorem map_fst_symbols
    (first : Linked pool firstName firstFile firstImports firstMessages firstEntries) :
    first.result.symbols.map (·.1) = (firstFile.outline pool.cursor).map (·.fullName) := by
  rw [result, linkedUnit, outlineSymbols, List.map_map]
  rfl

variable (first : Linked pool firstName firstFile firstImports firstMessages firstEntries)
  (behind : Linked first.grown secondName secondFile behindImports behindMessages behindEntries)
include behind

/-- Units have different names if one was registered behind the other. -/
theorem names_ne : firstName ≠ secondName := by
  intro same
  have registered := (Pool.find?_unitsByName_commit first.fresh secondName _).mpr
    (Or.inl ⟨same.symm, rfl⟩)
  cases registered.symm.trans behind.new

/-- Units declare different names if one was registered behind the other. -/
theorem outline_apart :
    ∀ item ∈ secondFile.outline pool.cursor, item.fullName ∉ first.result.symbols.map (·.1) := by
  intro item outlined declared
  rcases List.mem_map.mp declared with ⟨⟨fullName, symbol⟩, member, same⟩
  have outlinedThere : item.relocate _ ∈ secondFile.outline first.grown.cursor :=
    secondFile.outline_relocate (pool.makeRoom_moves first.result) ▸ List.mem_map_of_mem outlined
  have new := ((fresh_of_checkOutline behind.checked).2 _ outlinedThere).2.1
  have registered := (Pool.find?_symbols_commit first.fresh _ _).mpr (Or.inl member)
  rw [Outlined.fullName_relocate, ← same] at new
  cases new.symm.trans registered

theorem apart
    (second : Linked pool secondName secondFile secondImports secondMessages secondEntries) :
    first.result.Apart second.result where
  unitNames := first.names_ne behind
  symbols := by
    intro fullName firstDeclares secondDeclares
    rw [second.map_fst_symbols] at secondDeclares
    rcases List.mem_map.mp secondDeclares with ⟨item, outlined, same⟩
    exact first.outline_apart behind item outlined (same ▸ firstDeclares)

end Schema.Linked

/-- What was registered behind a unit that it does not import can be registered before it, and this
unit behind it. -/
theorem Schema.Pool.addUnit_swap (wellFormed : pool.WellFormed) {middle grown : Pool}
    {firstName firstText secondName secondText : String}
    (apart : firstName ∉ importedNames secondText)
    (firstAdded : pool.addUnit firstName firstText = .ok middle)
    (secondAdded : middle.addUnit secondName secondText = .ok grown) :
    ∃ first second : LinkedUnit, first.Fits pool ∧ second.Fits pool ∧ first.Apart second ∧
      grown = pool.both first second ∧
      pool.addUnit secondName secondText = .ok (pool.commit second) ∧
      (pool.commit second).addUnit firstName firstText = .ok (pool.both second first) := by
  rcases Pool.linked_of_addUnit wellFormed firstAdded with
    ⟨firstSchema, _, _, _, firstRead, first, firstLinks, isMiddle⟩
  subst isMiddle
  rcases Pool.linked_of_addUnit (wellFormed.commit first.fits) secondAdded with
    ⟨secondSchema, _, _, _, secondRead, behind, linksBehind, isGrown⟩
  -- the second text is linked without the first unit
  have importsApart : ∀ decl ∈ secondSchema.file.imports, decl.path ≠ firstName := by
    rw [importedNames_of_read secondRead] at apart
    exact fun decl member same => apart (List.mem_map.mpr ⟨decl, member, same⟩)
  have secondMoves : link first.grown secondName secondSchema.file =
      (link pool secondName secondSchema.file).map (·.relocate (pool.makeRoom first.result)) :=
    link_commit wellFormed first.joins importsApart (first.outline_apart behind)
  rcases Outcome.map_eq_ok_iff.mp (secondMoves.symm.trans linksBehind) with
    ⟨linked, secondLinks, isBehind⟩
  have secondNew : pool.unitsByName.find? secondName = none :=
    (Pool.find?_unitsByName_of_ne (first.names_ne behind).symm).symm.trans behind.new
  rcases linked_of_link wellFormed behind.declared secondNew secondLinks with
    ⟨_, _, _, second, isLinked⟩
  subst isLinked
  -- the first text is linked behind the second unit
  have unitsApart := first.apart behind second
  have namesApart : ∀ item ∈ firstSchema.file.outline pool.cursor,
      item.fullName ∉ second.result.symbols.map (·.1) := by
    intro item outlined
    apply unitsApart.symbols
    rw [first.map_fst_symbols]
    exact List.mem_map_of_mem outlined
  have firstMoves : link second.grown firstName firstSchema.file =
      (link pool firstName firstSchema.file).map (·.relocate (pool.makeRoom second.result)) :=
    link_commit wellFormed second.joins (ne_of_resolveImports first.resolved secondNew) namesApart
  rw [firstLinks] at firstMoves
  have firstNew := (Pool.find?_unitsByName_of_ne unitsApart.unitNames).trans first.new
  exact ⟨first.result, second.result, first.fits, second.fits, unitsApart,
    isGrown.trans (congrArg _ isBehind.symm), Pool.addUnit_of_link secondNew secondRead secondLinks,
    Pool.addUnit_of_link firstNew firstRead firstMoves⟩

/-- If two texts can be registered one behind the other, and the second one does not import the
first one, then they can be registered in reverse order, and no answer depends on the order.  The
first text cannot import the second one, nor can they have the same name, or one of them would
have been refused. -/
theorem addUnit_comm (attempts : List (String × String))
    {firstName firstText secondName secondText : String} {middle pool : Pool}
    (apart : firstName ∉ importedNames secondText)
    (firstAdded : (Pool.registerAll attempts).addUnit firstName firstText = .ok middle)
    (secondAdded : middle.addUnit secondName secondText = .ok pool) :
    ∃ otherMiddle other relocation,
      (Pool.registerAll attempts).addUnit secondName secondText = .ok otherMiddle ∧
        otherMiddle.addUnit firstName firstText = .ok other ∧
        relocation.Injective ∧ SameAnswers relocation pool other := by
  have wellFormed := Pool.wellFormed_registerAll attempts
  rcases Pool.addUnit_swap wellFormed apart firstAdded secondAdded with
    ⟨first, second, firstFits, secondFits, unitsApart, isPool, added, otherAdded⟩
  have isRegistered : Pool.registerAll (attempts ++ [(firstName, firstText)] ++
      [(secondName, secondText)]) = pool := by
    simp only [Pool.registerAll_concat, Pool.register, firstAdded, secondAdded]
  have isOther : Pool.registerAll (attempts ++ [(secondName, secondText)] ++
      [(firstName, firstText)]) = Pool.both (.registerAll attempts) second first := by
    simp only [Pool.registerAll_concat, Pool.register, added, otherAdded]
  refine ⟨_, _, Pool.exchangeUnits (.registerAll attempts) first second, added, otherAdded,
    Pool.exchangeUnits_injective _ first second, ?_⟩
  apply sameAnswers_of_embeds (isRegistered ▸ Pool.wellFormed_registerAll _)
    (isRegistered ▸ Pool.orderly_registerAll _) (isOther ▸ Pool.wellFormed_registerAll _)
  · rw [isPool]
    exact Pool.both_embeds_both wellFormed firstFits secondFits unitsApart
  · rw [isPool]
    exact Pool.both_embeds_both wellFormed secondFits firstFits unitsApart.symm

/-- A unit that the next two texts import. -/
def plotAttempts : List (String × String) :=
  [("plot.proto", "package plot;enum Scale\x7bMM=0;\x7dmessage Mark\x7bint32 x=1;int32 y=2;\x7d")]

def circleText : String :=
  "import \"plot.proto\";message Circle\x7bplot.Mark center=1;map<string,plot.Scale> radii=2;\x7d"

def squareText : String :=
  "import \"plot.proto\";message Square\x7bplot.Scale scale=1;message Side\x7b\x7dSide side=2;\x7d"

theorem addUnit_comm_plots :
    ∃ middle pool otherMiddle other relocation,
      "circle.proto" ∉ importedNames squareText ∧
        (Pool.registerAll plotAttempts).addUnit "circle.proto" circleText = .ok middle ∧
        middle.addUnit "square.proto" squareText = .ok pool ∧
        (Pool.registerAll plotAttempts).addUnit "square.proto" squareText = .ok otherMiddle ∧
        otherMiddle.addUnit "circle.proto" circleText = .ok other ∧
        relocation.Injective ∧ SameAnswers relocation pool other := by
  have apart : "circle.proto" ∉ importedNames squareText := by decide +kernel
  have isAdded : (((Pool.registerAll plotAttempts).addUnit "circle.proto" circleText).toOption.bind
      fun middle => (middle.addUnit "square.proto" squareText).toOption).isSome = true := by
    have square (pool : Pool) : pool.addUnit "square.proto" squareText = _ :=
      pool.addUnit_ofList "square.proto" _
    simp only [square]
    rw [plotAttempts, Pool.registerAll_ofList, circleText, Pool.addUnit_ofList]
    decide +kernel
  rcases Option.isSome_iff_exists.mp isAdded with ⟨pool, bothAdded⟩
  rcases Option.bind_eq_some_iff.mp bothAdded with ⟨middle, firstAdded, secondAdded⟩
  have firstAdded := Outcome.toOption_eq_some_iff.mp firstAdded
  have secondAdded := Outcome.toOption_eq_some_iff.mp secondAdded
  rcases addUnit_comm plotAttempts apart firstAdded secondAdded with
    ⟨otherMiddle, other, relocation, reversed⟩
  exact ⟨middle, pool, otherMiddle, other, relocation, apart, firstAdded, secondAdded, reversed⟩

end SchemaRecords
