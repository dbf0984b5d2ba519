import SchemaRecords.Proofs.Schema.ReadNames
import SchemaRecords.Schema.Outline

/-!
# Names that a text can declare

A name that a user looks up may have a dot in front of it, which is dropped.  So a full name is
found under itself only if it does not begin with a dot.  No declaration has such a name, since
the names that a text declares are identifiers, and the full names begin with these.
-/

namespace SchemaRecords.Schema

/-- A name that is not empty and does not begin with a dot. -/
def Plain (name : String) : Prop := ∃ first rest, name.toList = first :: rest ∧ first ≠ '.'

theorem Plain.append {name : String} (plain : Plain name) (more : String) :
    Plain (name ++ more) := by
  rcases plain with ⟨first, rest, same, notDot⟩
  exact ⟨first, rest ++ more.toList, by rw [String.toList_append, same, List.cons_append], notDot⟩

theorem Plain.ne_empty {name : String} (plain : Plain name) : name ≠ "" := by
  intro empty
  rcases plain with ⟨first, rest, same, _⟩
  rw [empty] at same
  cases same

/-- The name of an enumeration is plain. -/
def EnumDecl.Named (decl : EnumDecl) : Prop := Plain decl.name

/-- The name of a message is plain. -/
def MessageDecl.Named (decl : MessageDecl) : Prop := Plain decl.name

/-- The names that a text declares outside of any message are plain, and so is its package. -/
structure FileDecl.Named (file : FileDecl) : Prop where
  package : ∀ name, file.package = some name → Plain name
  messages : ∀ decl ∈ file.messages, decl.Named
  enums : ∀ decl ∈ file.enums, decl.Named

theorem plain_of_isIdentifier {name : String} (isName : isIdentifier name.toList = true) :
    Plain name := by
  cases same : name.toList with
  | nil =>
    rw [same] at isName
    cases isName
  | cons first rest =>
    rw [same] at isName
    rcases Bool.and_eq_true_iff.mp isName with ⟨starts, _⟩
    refine ⟨first, rest, same, fun isDot => ?_⟩
    subst isDot
    exact absurd starts (by decide)

theorem SchemaText.named_of_read {text : String} {schema : SchemaText}
    (read : SchemaText.read text = .ok schema) : schema.file.Named := by
  have names := SchemaText.legal_of_read read
  refine ⟨fun name given => ?_, fun decl member => ?_, fun decl member => ?_⟩
  · rcases names.package name given with ⟨first, more, rfl, isName⟩
    exact (plain_of_isIdentifier isName).append more
  · exact plain_of_isIdentifier (names.messages decl member).name
  · exact plain_of_isIdentifier (names.enums decl member)

/-! ## Full names -/

/-- A full name is plain if its scope is, or if there is no scope and the name itself is. -/
theorem plain_qualify {scope name : String} (inside : scope ≠ "" → Plain scope)
    (outside : scope = "" → Plain name) : Plain (qualify scope name) := by
  unfold qualify
  split
  · exact outside ‹_›
  · exact ((inside ‹_›).append _).append _

theorem outlineEnumerations_plain {scope : String} {decls : List EnumDecl} {next : Nat}
    (plain : ∀ decl ∈ decls, Plain (qualify scope decl.name)) :
    ∀ item ∈ outlineEnumerations scope next decls, Plain item.fullName := by
  induction decls generalizing next with
  | nil => exact fun _ member => nomatch member
  | cons decl rest inductionHypothesis =>
    rcases List.forall_mem_cons.mp plain with ⟨first, others⟩
    exact List.forall_mem_cons.mpr ⟨first, inductionHypothesis others⟩

mutual

/-- The full names of what lies inside begin with that of the message around it. -/
theorem MessageDecl.outline_plain (scope : String) (parent : Option MessageId) (next : Cursor) :
    (decl : MessageDecl) → Plain (qualify scope decl.name) →
      ∀ item ∈ decl.outline scope parent next, Plain item.fullName
  | ⟨name, fields, oneofs, messages, enums, place⟩, plain => by
    have inside (inner : String) : Plain (qualify (qualify scope name) inner) :=
      plain_qualify (fun _ => plain) fun empty => absurd empty plain.ne_empty
    refine List.forall_mem_cons.mpr ⟨plain, List.forall_mem_append.mpr ⟨?_, ?_⟩⟩
    · exact outlineEnumerations_plain fun decl _ => inside decl.name
    · exact outlineMessages_plain _ _ _ messages fun decl _ => inside decl.name

theorem outlineMessages_plain (scope : String) (parent : Option MessageId) (next : Cursor) :
    (decls : List MessageDecl) → (∀ decl ∈ decls, Plain (qualify scope decl.name)) →
      ∀ item ∈ outlineMessages scope parent next decls, Plain item.fullName
  | [], _ => fun _ member => nomatch member
  | decl :: rest, plain =>
    List.forall_mem_append.mpr
      ⟨decl.outline_plain scope parent next (plain decl List.mem_cons_self),
        outlineMessages_plain scope parent _ rest fun other member =>
          plain other (List.mem_cons_of_mem _ member)⟩

end

theorem FileDecl.outline_plain {file : FileDecl} (named : file.Named) (next : Cursor) :
    ∀ item ∈ file.outline next, Plain item.fullName := by
  have scopePlain : file.scope ≠ "" → Plain file.scope := by
    intro given
    cases package : file.package with
    | none =>
      rw [scope, package] at given
      exact absurd rfl given
    | some name =>
      rw [scope, package]
      exact named.package name package
  refine List.forall_mem_append.mpr ⟨outlineEnumerations_plain ?_, outlineMessages_plain _ _ _ _ ?_⟩
  · exact fun decl member => plain_qualify scopePlain fun _ => named.enums decl member
  · exact fun decl member => plain_qualify scopePlain fun _ => named.messages decl member

end SchemaRecords.Schema
