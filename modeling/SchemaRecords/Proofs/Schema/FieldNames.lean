import SchemaRecords.Proofs.Schema.LinkedReferences

/-!
# Names that a field can have

Fields go by the names that their declarations give them, and the fields of an entry go by `key`
and `value`.  So every field of a registered unit has an identifier for its name.  Its JSON name,
in contrast, can be any text: the schema may set it.  Only a JSON name that is not set is derived
from the name, and then it has no other characters than letters and digits.
-/

namespace SchemaRecords.Schema

/-! ## Declarations in an outline -/

/-- The names of a message in an outline, and those inside of it, are legal. -/
def Outlined.Legal (legal : String → Prop) : Outlined → Prop
  | .message item => item.decl.Legal legal
  | .enumeration _ => True

theorem outlineEnumerations_legal {legal : String → Prop} {scope : String} {decls : List EnumDecl}
    {next : Nat} : ∀ item ∈ outlineEnumerations scope next decls, item.Legal legal := by
  induction decls generalizing next with
  | nil => exact fun _ member => nomatch member
  | cons decl rest inductionHypothesis =>
    exact List.forall_mem_cons.mpr ⟨trivial, inductionHypothesis⟩

mutual

theorem MessageDecl.outline_legal {legal : String → Prop} (scope : String)
    (parent : Option MessageId) (next : Cursor) :
    (decl : MessageDecl) → decl.Legal legal →
      ∀ item ∈ decl.outline scope parent next, item.Legal legal
  | ⟨_, _, _, messages, _, _⟩, names =>
    List.forall_mem_cons.mpr ⟨names, List.forall_mem_append.mpr
      ⟨outlineEnumerations_legal, outlineMessages_legal _ _ _ messages names.messages⟩⟩

theorem outlineMessages_legal {legal : String → Prop} (scope : String)
    (parent : Option MessageId) (next : Cursor) :
    (decls : List MessageDecl) → (∀ decl ∈ decls, decl.Legal legal) →
      ∀ item ∈ outlineMessages scope parent next decls, item.Legal legal
  | [], _ => fun _ member => nomatch member
  | decl :: rest, names =>
    List.forall_mem_append.mpr
      ⟨decl.outline_legal scope parent next (names decl List.mem_cons_self),
        outlineMessages_legal scope parent _ rest fun other member =>
          names other (List.mem_cons_of_mem _ member)⟩

end

theorem FileDecl.outline_legal {legal : String → Prop} {file : FileDecl} (names : file.Legal legal)
    (next : Cursor) : ∀ item ∈ messagesOf (file.outline next), item.decl.Legal legal := by
  intro item member
  rcases List.mem_filterMap.mp member with ⟨outlined, listed, isItem⟩
  have each : outlined.Legal legal := by
    rcases List.mem_append.mp listed with enumeration | message
    · exact outlineEnumerations_legal outlined enumeration
    · exact outlineMessages_legal _ _ _ file.messages names.messages outlined message
  cases outlined with
  | enumeration _ => cases isItem
  | message _ =>
    cases isItem
    exact each

/-! ## Linked fields -/

/-- Made fields go by the declared names, by induction on them. -/
theorem names_of_made {context : FieldContext} {entries : List Message} {decls : List FieldDecl}
    {fields : List Field} (made : List.Forall₂ (context.Made entries) decls fields) :
    fields.map (·.name) = decls.map (·.name) := by
  induction made with
  | nil => rfl
  | cons first _ inductionHypothesis =>
    rw [List.map_cons, List.map_cons, first.name, inductionHypothesis]

/-- Linking gives fields the names that are declared. -/
theorem linkMessages_legal {legal : String → Prop} {env : Environment} {dialect : Dialect}
    {unit : UnitId} {next : Nat} {items : List OutlinedMessage} {messages entries : List Message}
    (names : ∀ item ∈ items, item.decl.Legal legal)
    (linked : linkMessages env dialect unit next items = .ok (messages, entries)) :
    ∀ message ∈ messages, ∀ field ∈ message.fields, legal field.name := by
  induction items generalizing next messages entries with
  | nil =>
    cases linked
    exact fun _ member => nomatch member
  | cons item rest inductionHypothesis =>
    rcases Outcome.bind_eq_ok_iff.mp linked with ⟨⟨fields, own⟩, first, linked⟩
    rcases Outcome.bind_eq_ok_iff.mp linked with ⟨⟨others, later⟩, second, result⟩
    cases result
    rcases linkFields_made first with ⟨_, new, rfl, each⟩
    rcases List.forall_mem_cons.mp names with ⟨itemNames, restNames⟩
    refine List.forall_mem_cons.mpr ⟨fun field member => ?_, inductionHypothesis restNames second⟩
    have named : field.name ∈ fields.map (·.name) := List.mem_map_of_mem member
    rw [names_of_made each] at named
    rcases List.mem_map.mp named with ⟨decl, declared, same⟩
    exact same ▸ itemNames.fields decl declared

/-- Every field has an identifier for its name. -/
def Pool.FieldsNamed (pool : Pool) : Prop :=
  ∀ message ∈ pool.messages, ∀ field ∈ message.fields, isIdentifier field.name.toList = true

theorem Linked.fieldsNamed {pool : Pool} {unitName : String} {file : FileDecl}
    {imports : List (UnitId × Bool)} {messages entries : List Message}
    (run : Linked pool unitName file imports messages entries)
    (names : file.Legal fun name => isIdentifier name.toList = true) (named : pool.FieldsNamed) :
    run.grown.FieldsNamed := by
  refine List.forall_mem_append.mpr ⟨named, List.forall_mem_append.mpr
    ⟨linkMessages_legal (FileDecl.outline_legal names _) run.made, fun entry member => ?_⟩⟩
  rcases run.sound.entries entry member with ⟨_, _, _, _, key, type, _, _, rfl⟩
  intro field part
  rcases List.mem_cons.mp part with rfl | rest
  · exact (by decide : isIdentifier "key".toList = true)
  · cases List.mem_singleton.mp rest
    exact (by decide : isIdentifier "value".toList = true)

/-- Whatever was registered, every field has an identifier for its name. -/
theorem Pool.fieldsNamed_registerAll (attempts : List (String × String)) :
    (registerAll attempts).FieldsNamed := by
  apply registerAll_induction
  · exact fun _ member => nomatch member
  · intro pool grown name text wellFormed named added
    rcases linked_of_addUnit wellFormed added with ⟨schema, _, _, _, read, run, _, same⟩
    exact same ▸ run.fieldsNamed (SchemaText.legal_of_read read) named

/-! ## JSON names that are not set -/

theorem mem_of_mem_lowerCamelCase {raise : Bool} {name : List Char} {c : Char}
    (member : c ∈ lowerCamelCase.go raise name) : ∃ d ∈ name, c = d ∨ c = d.toUpper := by
  induction name generalizing raise with
  | nil => cases member
  | cons first rest inductionHypothesis =>
    rw [lowerCamelCase.go] at member
    split at member
    · rcases inductionHypothesis member with ⟨d, listed, same⟩
      exact ⟨d, List.mem_cons_of_mem _ listed, same⟩
    · rcases List.mem_cons.mp member with here | later
      · refine ⟨first, List.mem_cons_self, ?_⟩
        split at here
        · exact Or.inr here
        · exact Or.inl here
      · rcases inductionHypothesis later with ⟨d, listed, same⟩
        exact ⟨d, List.mem_cons_of_mem _ listed, same⟩

theorem toUpper_ne_at {c : Char} (different : c ≠ '@') : c.toUpper ≠ '@' := by
  intro same
  unfold Char.toUpper at same
  split at same
  · rename_i small
    have value := congrArg Char.val same
    dsimp only at value
    rw [← UInt32.add_sub_cancel c.val ('A'.val - 'a'.val), value] at small
    exact absurd small.1 (by decide)
  · exact different same

theorem isIdentifierPart_of_mem {name : List Char} (isName : isIdentifier name = true) {c : Char}
    (member : c ∈ name) : isIdentifierPart c = true := by
  cases name with
  | nil => cases member
  | cons first rest =>
    rcases Bool.and_eq_true_iff.mp isName with ⟨starts, parts⟩
    rcases List.mem_cons.mp member with rfl | later
    · exact isIdentifierPart_of_start starts
    · exact List.all_eq_true.mp parts c later

theorem at_notMem_of_isIdentifier {name : List Char} (isName : isIdentifier name = true) :
    '@' ∉ name :=
  fun member => absurd (isIdentifierPart_of_mem isName member) (by decide)

theorem at_notMem_lowerCamelCase {name : String} (isName : isIdentifier name.toList = true) :
    '@' ∉ (lowerCamelCase name).toList := by
  rw [lowerCamelCase, String.toList_ofList]
  intro member
  rcases mem_of_mem_lowerCamelCase member with ⟨c, listed, same⟩
  have different : c ≠ '@' := fun isAt => at_notMem_of_isIdentifier isName (isAt ▸ listed)
  rcases same with same | same
  · exact different same.symm
  · exact toUpper_ne_at different same.symm

end SchemaRecords.Schema
