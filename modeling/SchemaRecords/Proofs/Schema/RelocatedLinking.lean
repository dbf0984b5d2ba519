import SchemaRecords.Proofs.Outcome
import SchemaRecords.Proofs.Schema.Relocation

/-!
# Linking at other places

Linking gives out places one after the other and copies those that it looks up, but it never asks
what a place is.  So if the first places are others, and names stand for the same at other
places, then the same text is linked to the same descriptors at other places, or refused for the
same reason.
-/

namespace SchemaRecords.Schema

variable {relocation : Relocation}

/-! ## Outlines -/

/-- The places from a cursor on become those from another cursor on. -/
structure Relocation.Moves (relocation : Relocation) (next moved : Cursor) : Prop where
  message : ∀ count, relocation.message ⟨next.message + count⟩ = ⟨moved.message + count⟩
  enumeration : ∀ count,
    relocation.enumeration ⟨next.enumeration + count⟩ = ⟨moved.enumeration + count⟩

namespace Relocation.Moves

variable {next moved : Cursor} (moves : relocation.Moves next moved)
include moves

theorem nextMessage : relocation.message ⟨next.message⟩ = ⟨moved.message⟩ := moves.message 0

theorem nextEnumeration : relocation.enumeration ⟨next.enumeration⟩ = ⟨moved.enumeration⟩ :=
  moves.enumeration 0

/-- What holds of the places from a cursor on holds of those further on. -/
theorem advance (messages enumerations : Nat) :
    relocation.Moves ⟨next.message + messages, next.enumeration + enumerations⟩
      ⟨moved.message + messages, moved.enumeration + enumerations⟩ where
  message := by
    intro count
    rw [Nat.add_assoc, Nat.add_assoc]
    exact moves.message _
  enumeration := by
    intro count
    rw [Nat.add_assoc, Nat.add_assoc]
    exact moves.enumeration _

end Relocation.Moves

/-- An outlined message once places have changed. -/
def OutlinedMessage.relocate (relocation : Relocation) (item : OutlinedMessage) : OutlinedMessage :=
  { item with
    id := relocation.message item.id
    parent := item.parent.map relocation.message
    nestedMessages := item.nestedMessages.map relocation.message
    nestedEnumerations := item.nestedEnumerations.map relocation.enumeration }

/-- An outlined enumeration once places have changed. -/
def OutlinedEnumeration.relocate (relocation : Relocation) (item : OutlinedEnumeration) :
    OutlinedEnumeration :=
  { item with id := relocation.enumeration item.id }

/-- A declaration in an outline once places have changed. -/
def Outlined.relocate (relocation : Relocation) : Outlined → Outlined
  | .message item => .message (item.relocate relocation)
  | .enumeration item => .enumeration (item.relocate relocation)

theorem Outlined.fullName_relocate (item : Outlined) :
    (item.relocate relocation).fullName = item.fullName := by
  cases item <;> rfl

theorem Outlined.symbol_relocate (item : Outlined) :
    (item.relocate relocation).symbol = item.symbol.relocate relocation := by
  cases item <;> rfl

theorem messagesOf_relocate (outline : List Outlined) :
    messagesOf (outline.map (·.relocate relocation)) =
      (messagesOf outline).map (·.relocate relocation) := by
  rw [messagesOf, messagesOf, List.filterMap_map, List.map_filterMap]
  apply List.filterMap_congr
  intro item _
  cases item <;> rfl

theorem enumerationsOf_relocate (outline : List Outlined) :
    enumerationsOf (outline.map (·.relocate relocation)) =
      (enumerationsOf outline).map (·.relocate relocation) := by
  rw [enumerationsOf, enumerationsOf, List.filterMap_map, List.map_filterMap]
  apply List.filterMap_congr
  intro item _
  cases item <;> rfl

theorem messageIds_relocate {next moved : Cursor} (moves : relocation.Moves next moved)
    (decls : List MessageDecl) :
    (messageIds next.message decls).map relocation.message = messageIds moved.message decls := by
  induction decls generalizing next moved with
  | nil => rfl
  | cons decl rest inductionHypothesis =>
    rw [messageIds, messageIds, List.map_cons, moves.nextMessage,
      inductionHypothesis (moves.advance decl.messageCount 0)]

theorem enumerationIds_relocate {next moved : Cursor} (moves : relocation.Moves next moved)
    (decls : List EnumDecl) :
    (enumerationIds next.enumeration decls).map relocation.enumeration =
      enumerationIds moved.enumeration decls := by
  induction decls generalizing next moved with
  | nil => rfl
  | cons decl rest inductionHypothesis =>
    rw [enumerationIds, enumerationIds, List.map_cons, moves.nextEnumeration,
      inductionHypothesis (moves.advance 0 1)]

theorem outlineEnumerations_relocate (scope : String) {next moved : Cursor}
    (moves : relocation.Moves next moved) (decls : List EnumDecl) :
    (outlineEnumerations scope next.enumeration decls).map (·.relocate relocation) =
      outlineEnumerations scope moved.enumeration decls := by
  induction decls generalizing next moved with
  | nil => rfl
  | cons decl rest inductionHypothesis =>
    rw [outlineEnumerations, outlineEnumerations, List.map_cons, Outlined.relocate,
      OutlinedEnumeration.relocate, moves.nextEnumeration,
      inductionHypothesis (moves.advance 0 1)]

mutual

theorem MessageDecl.outline_relocate (scope : String) (parent : Option MessageId)
    {next moved : Cursor} (moves : relocation.Moves next moved) :
    (decl : MessageDecl) → (decl.outline scope parent next).map (·.relocate relocation) =
      decl.outline scope (parent.map relocation.message) moved
  | ⟨name, fields, oneofs, messages, enums, place⟩ => by
    have nested := messageIds_relocate (moves.advance 1 0) messages
    have enumerations := outlineEnumerations_relocate (qualify scope name) moves enums
    have inside := outlineMessages_relocate (qualify scope name) (some ⟨next.message⟩)
      (moves.advance 1 enums.length) messages
    rw [Option.map_some, moves.nextMessage] at inside
    rw [MessageDecl.outline, MessageDecl.outline, List.map_cons, List.map_append, inside,
      enumerations, Outlined.relocate, OutlinedMessage.relocate]
    simp only [moves.nextMessage, nested, enumerationIds_relocate moves]

theorem outlineMessages_relocate (scope : String) (parent : Option MessageId)
    {next moved : Cursor} (moves : relocation.Moves next moved) :
    (decls : List MessageDecl) →
      (outlineMessages scope parent next decls).map (·.relocate relocation) =
        outlineMessages scope (parent.map relocation.message) moved decls
  | [] => rfl
  | decl :: rest => by
    rw [outlineMessages, outlineMessages, List.map_append, decl.outline_relocate scope parent moves,
      outlineMessages_relocate scope parent (moves.advance _ _) rest]

end

theorem FileDecl.outline_relocate (file : FileDecl) {next moved : Cursor}
    (moves : relocation.Moves next moved) :
    (file.outline next).map (·.relocate relocation) = file.outline moved := by
  have messages := outlineMessages_relocate file.scope none (moves.advance 0 file.enums.length)
    file.messages
  rw [outline, outline, List.map_append, outlineEnumerations_relocate _ moves]
  exact congrArg _ messages

/-! ## Names -/

/-- Every name stands for the same, but at another place. -/
def Environment.Relocates (relocation : Relocation) (env moved : Environment) : Prop :=
  ∀ fullName, moved.symbol? fullName = (env.symbol? fullName).map (·.relocate relocation)

theorem Environment.Relocates.resolve? {env moved : Environment}
    (relocates : Environment.Relocates relocation env moved) (scope name : String) :
    moved.resolve? scope name = (env.resolve? scope name).map (·.relocate relocation) := by
  unfold Environment.resolve?
  split
  · exact relocates _
  · rw [List.map_findSome?]
    exact congrArg (List.findSome? · _) (funext fun outer => relocates _)

/-! ## Fields -/

theorem positions_relocate {Key : Type} (key : Field → Key)
    (same : ∀ field : Field, key (field.relocate relocation) = key field) (fields : List Field) :
    positions key (fields.map (·.relocate relocation)) = positions key fields := by
  simp only [positions, List.zipIdx_map, List.map_map, Function.comp_def, Prod.map, id_eq, same]

theorem groupOneofs_relocate (names : List String) (fields : List Field) :
    groupOneofs names (fields.map (·.relocate relocation)) = groupOneofs names fields := by
  simp only [groupOneofs, List.zipIdx_map, List.filter_map, List.map_map, Function.comp_def,
    Prod.map, id_eq, Field.oneof_relocate]
  rfl

theorem Message.withFields_relocate (message : Message) (fields : List Field)
    (oneofs : List String) :
    (message.withFields fields oneofs).relocate relocation =
      (message.relocate relocation).withFields (fields.map (·.relocate relocation)) oneofs := by
  simp only [Message.withFields, Message.relocate, groupOneofs_relocate,
    positions_relocate Field.number fun _ => rfl, positions_relocate Field.name fun _ => rfl]

/-- What fields are linked in once places have changed. -/
def FieldContext.relocate (relocation : Relocation) (moved : Environment) (context : FieldContext) :
    FieldContext :=
  { context with
    env := moved
    unit := relocation.unit context.unit
    message := relocation.message context.message }

theorem FieldContext.entry_relocate (relocation : Relocation) (context : FieldContext)
    (moved : Environment) (id : MessageId) (field : String) (key : Scalar) (value : ValueType) :
    (context.entry id field key value).relocate relocation =
      (context.relocate relocation moved).entry (relocation.message id) field key
        (value.relocate relocation) :=
  Message.withFields_relocate _ _ _

/-- Linked fields and entries once places have changed. -/
def relocateFields (relocation : Relocation) (linked : List Field × List Message) :
    List Field × List Message :=
  (linked.1.map (·.relocate relocation), linked.2.map (·.relocate relocation))

theorem checkDistinct_relocate (scope : String) (earlier : List Field) (decl : FieldDecl) :
    checkDistinct scope (earlier.map (·.relocate relocation)) decl =
      checkDistinct scope earlier decl := by
  have found : ((earlier.map (·.relocate relocation)).find? fun field =>
      field.number = decl.number) =
        (earlier.find? fun field => field.number = decl.number).map (·.relocate relocation) :=
    List.find?_map
  rw [checkDistinct, checkDistinct, found, List.any_map]
  cases earlier.find? fun field => field.number = decl.number <;> rfl

section Names

variable {env moved : Environment} (relocates : Environment.Relocates relocation env moved)
include relocates

theorem linkType_relocate (scope field : String) (type : TypeName) :
    linkType moved scope field type =
      (linkType env scope field type).map (·.relocate relocation) := by
  cases type with
  | scalar type => rfl
  | named name =>
    rw [linkType, linkType, relocates.resolve?]
    cases env.resolve? scope name with
    | none => rfl
    | some symbol => exact congrArg Except.ok symbol.type_relocate

theorem linkShape_relocate {context : FieldContext} (isEnv : context.env = env)
    (entry : MessageId) (decl : FieldDecl) :
    linkShape (context.relocate relocation moved) (relocation.message entry) decl =
      (linkShape context entry decl).map fun made =>
        (made.1.relocate relocation, made.2.map (·.relocate relocation)) := by
  subst isEnv
  unfold linkShape
  cases decl.type with
  | map key value =>
    have linked := linkType_relocate relocates context.scope decl.name value
    dsimp only [FieldContext.relocate]
    rw [linked]
    cases linkType context.env context.scope decl.name value with
    | error refusal => rfl
    | ok type =>
      have made := context.entry_relocate relocation moved entry decl.name key type
      exact congrArg (fun made => Except.ok (Shape.map (relocation.message entry), [made]))
        made.symm
  | single name =>
    have linked := linkType_relocate relocates context.scope decl.name name
    dsimp only [FieldContext.relocate]
    rw [linked]
    cases linkType context.env context.scope decl.name name with
    | error refusal => rfl
    | ok type =>
      simp only [Except.map, ValueType.isPackable_relocate]
      split <;> rfl

/-- By induction on the fields; the entries of earlier ones take up the places in front. -/
theorem linkFields_relocate {context : FieldContext} (isEnv : context.env = env)
    {next movedNext : Nat}
    (moves : ∀ count, relocation.message ⟨next + count⟩ = ⟨movedNext + count⟩)
    (earlier : List Field) (entries : List Message) (decls : List FieldDecl) :
    linkFields (context.relocate relocation moved) movedNext (earlier.map (·.relocate relocation))
        (entries.map (·.relocate relocation)) decls =
      (linkFields context next earlier entries decls).map (relocateFields relocation) := by
  induction decls generalizing earlier entries with
  | nil => rfl
  | cons decl rest inductionHypothesis =>
    have shape := linkShape_relocate relocates isEnv ⟨next + entries.length⟩ decl
    rw [moves] at shape
    have scope : (context.relocate relocation moved).scope = context.scope := rfl
    simp only [linkFields, scope, checkDistinct_relocate, List.length_map, shape]
    cases checkNumber context.scope decl with
    | error refusal => rfl
    | ok =>
      cases checkDistinct context.scope earlier decl with
      | error refusal => rfl
      | ok =>
        apply Outcome.map_bind
        rintro ⟨shape, added⟩
        have later := inductionHypothesis (earlier ++ [⟨decl.name,
          decl.jsonName.getD (lowerCamelCase decl.name), decl.number, shape, decl.oneof⟩])
          (entries ++ added)
        rw [List.map_append, List.map_append] at later
        exact later

end Names

/-! ## Messages -/

theorem OutlinedMessage.stub_relocate (item : OutlinedMessage) (unit : UnitId) :
    (item.stub unit).relocate relocation =
      (item.relocate relocation).stub (relocation.unit unit) := rfl

/-- Linked messages and entries once places have changed. -/
def relocateMessages (relocation : Relocation) (linked : List Message × List Message) :
    List Message × List Message :=
  (linked.1.map (·.relocate relocation), linked.2.map (·.relocate relocation))

theorem linkMessages_relocate {env moved : Environment}
    (relocates : Environment.Relocates relocation env moved) (dialect : Dialect) (unit : UnitId)
    {next movedNext : Nat}
    (moves : ∀ count, relocation.message ⟨next + count⟩ = ⟨movedNext + count⟩)
    (items : List OutlinedMessage) :
    linkMessages moved dialect (relocation.unit unit) movedNext
        (items.map (·.relocate relocation)) =
      (linkMessages env dialect unit next items).map (relocateMessages relocation) := by
  induction items generalizing next movedNext with
  | nil => rfl
  | cons item rest inductionHypothesis =>
    let context : FieldContext := ⟨env, dialect, unit, item.id, item.fullName⟩
    have linked : linkFields (context.relocate relocation moved) movedNext [] [] item.decl.fields =
        (linkFields context next [] [] item.decl.fields).map (relocateFields relocation) :=
      linkFields_relocate relocates rfl moves [] [] item.decl.fields
    have itself : (⟨moved, dialect, relocation.unit unit, (item.relocate relocation).id,
        (item.relocate relocation).fullName⟩ : FieldContext) =
          context.relocate relocation moved := rfl
    have decl : (item.relocate relocation).decl = item.decl := rfl
    simp only [linkMessages, List.map_cons, itself, decl, linked]
    apply Outcome.map_bind
    rintro ⟨fields, entries⟩
    have later : ∀ count, relocation.message ⟨next + entries.length + count⟩ =
        ⟨movedNext + entries.length + count⟩ := by
      intro count
      rw [Nat.add_assoc, Nat.add_assoc]
      exact moves _
    simp only [relocateFields, List.length_map, inductionHypothesis later]
    apply Outcome.map_bind
    rintro ⟨messages, others⟩
    simp only [relocateMessages, Except.map, List.map_cons, List.map_append,
      Message.withFields_relocate, OutlinedMessage.stub_relocate]

end SchemaRecords.Schema
