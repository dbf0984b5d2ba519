import SchemaRecords.Proofs.Schema.OutlinePlaces

/-!
# What a text declares

A schema text declares messages and enumerations at any depth.  Their full names follow from the
scopes around them, and neither a pool nor a place in it is needed to list them.  The outline of
the text lists the same declarations, but with the places that they are going to have.
-/

namespace SchemaRecords.Schema

mutual

/-- A message of a scope and all messages inside of it, with their full names. -/
def MessageDecl.declared (scope : String) : MessageDecl → List (String × MessageDecl)
  | ⟨name, fields, oneofs, messages, enums, place⟩ =>
    (qualify scope name, ⟨name, fields, oneofs, messages, enums, place⟩) ::
      declaredWithin (qualify scope name) messages

/-- The messages of a scope and all messages inside of them, with their full names. -/
def declaredWithin (scope : String) : List MessageDecl → List (String × MessageDecl)
  | [] => []
  | decl :: rest => decl.declared scope ++ declaredWithin scope rest

end

/-- Enumerations of a scope, with their full names. -/
def enumerationsWithin (scope : String) (enums : List EnumDecl) : List (String × EnumDecl) :=
  enums.map fun decl => (qualify scope decl.name, decl)

namespace FileDecl

/-- The messages that a text declares at any depth, with their full names. -/
def declaredMessages (file : FileDecl) : List (String × MessageDecl) :=
  declaredWithin file.scope file.messages

/-- The enumerations that a text declares, at the top or in any message, with their full names. -/
def declaredEnumerations (file : FileDecl) : List (String × EnumDecl) :=
  enumerationsWithin file.scope file.enums ++
    file.declaredMessages.flatMap fun message => enumerationsWithin message.1 message.2.enums

/-- The full names of all messages and enumerations that a text declares. -/
def declaredNames (file : FileDecl) : List String :=
  file.declaredMessages.map (·.1) ++ file.declaredEnumerations.map (·.1)

end FileDecl

/-! ## The declarations of an outline -/

/-- What an outline says about the declarations of messages. -/
def declarationsOf (outline : List Outlined) : List (String × MessageDecl) :=
  (messagesOf outline).map fun item => (item.fullName, item.decl)

/-- What an outline says about the declarations of enumerations. -/
def enumDeclarationsOf (outline : List Outlined) : List (String × EnumDecl) :=
  (enumerationsOf outline).map fun item => (item.fullName, item.decl)

theorem declarationsOf_append (first second : List Outlined) :
    declarationsOf (first ++ second) = declarationsOf first ++ declarationsOf second := by
  rw [declarationsOf, messagesOf_append, List.map_append]
  rfl

theorem enumDeclarationsOf_append (first second : List Outlined) :
    enumDeclarationsOf (first ++ second) =
      enumDeclarationsOf first ++ enumDeclarationsOf second := by
  rw [enumDeclarationsOf, enumerationsOf_append, List.map_append]
  rfl

theorem declarationsOf_message (item : OutlinedMessage) (rest : List Outlined) :
    declarationsOf (.message item :: rest) = (item.fullName, item.decl) :: declarationsOf rest := by
  rw [declarationsOf, messagesOf_message, List.map_cons]
  rfl

theorem enumDeclarationsOf_message (item : OutlinedMessage) (rest : List Outlined) :
    enumDeclarationsOf (.message item :: rest) = enumDeclarationsOf rest := by
  rw [enumDeclarationsOf, enumerationsOf_message]
  rfl

theorem declarationsOf_outlineEnumerations (scope : String) (decls : List EnumDecl)
    (next : Nat) : declarationsOf (outlineEnumerations scope next decls) = [] := by
  rw [declarationsOf, messagesOf_outlineEnumerations, List.map_nil]

theorem enumDeclarationsOf_outlineEnumerations (scope : String) (decls : List EnumDecl)
    (next : Nat) :
    enumDeclarationsOf (outlineEnumerations scope next decls) = enumerationsWithin scope decls := by
  induction decls generalizing next with
  | nil => rfl
  | cons decl rest inductionHypothesis =>
    rw [enumerationsWithin, List.map_cons, ← enumerationsWithin, ← inductionHypothesis (next + 1)]
    rfl

mutual

/-- By recursion on the declaration, together with the declarations side by side. -/
theorem declarationsOf_outline (scope : String) (parent : Option MessageId) (next : Cursor) :
    ∀ decl : MessageDecl, declarationsOf (decl.outline scope parent next) = decl.declared scope
  | ⟨name, fields, oneofs, messages, enums, place⟩ => by
    rw [MessageDecl.outline, MessageDecl.declared, declarationsOf_message, declarationsOf_append,
      declarationsOf_outlineEnumerations, declarationsOf_outlineMessages, List.nil_append]

theorem declarationsOf_outlineMessages (scope : String) (parent : Option MessageId)
    (next : Cursor) : ∀ decls : List MessageDecl,
      declarationsOf (outlineMessages scope parent next decls) = declaredWithin scope decls
  | [] => rfl
  | decl :: rest => by
    rw [outlineMessages, declaredWithin, declarationsOf_append, declarationsOf_outline,
      declarationsOf_outlineMessages]

end

mutual

/-- By recursion on the declaration, together with the declarations side by side. -/
theorem enumDeclarationsOf_outline (scope : String) (parent : Option MessageId) (next : Cursor) :
    ∀ decl : MessageDecl, enumDeclarationsOf (decl.outline scope parent next) =
      (decl.declared scope).flatMap fun message => enumerationsWithin message.1 message.2.enums
  | ⟨name, fields, oneofs, messages, enums, place⟩ => by
    rw [MessageDecl.outline, MessageDecl.declared, enumDeclarationsOf_message,
      enumDeclarationsOf_append, enumDeclarationsOf_outlineEnumerations,
      enumDeclarationsOf_outlineMessages, List.flatMap_cons]

theorem enumDeclarationsOf_outlineMessages (scope : String) (parent : Option MessageId)
    (next : Cursor) : ∀ decls : List MessageDecl,
      enumDeclarationsOf (outlineMessages scope parent next decls) =
        (declaredWithin scope decls).flatMap fun message =>
          enumerationsWithin message.1 message.2.enums
  | [] => rfl
  | decl :: rest => by
    rw [outlineMessages, declaredWithin, enumDeclarationsOf_append, List.flatMap_append,
      enumDeclarationsOf_outline, enumDeclarationsOf_outlineMessages]

end

namespace FileDecl

theorem declarationsOf_outline (file : FileDecl) (next : Cursor) :
    declarationsOf (file.outline next) = file.declaredMessages := by
  rw [outline, declarationsOf_append, declarationsOf_outlineEnumerations,
    declarationsOf_outlineMessages, List.nil_append, declaredMessages]

theorem enumDeclarationsOf_outline (file : FileDecl) (next : Cursor) :
    enumDeclarationsOf (file.outline next) = file.declaredEnumerations := by
  rw [outline, enumDeclarationsOf_append, enumDeclarationsOf_outlineEnumerations,
    enumDeclarationsOf_outlineMessages, declaredEnumerations, declaredMessages]

/-- An outline lists the declared names, but not the messages first. -/
theorem fullNames_perm (file : FileDecl) (next : Cursor) :
    ((file.outline next).map (·.fullName)).Perm file.declaredNames := by
  have apart (outline : List Outlined) : (outline.map (·.fullName)).Perm
      ((declarationsOf outline).map (·.1) ++ (enumDeclarationsOf outline).map (·.1)) := by
    induction outline with
    | nil => exact .nil
    | cons item rest inductionHypothesis =>
      cases item with
      | message item => exact inductionHypothesis.cons _
      | enumeration item => exact (inductionHypothesis.cons _).trans List.perm_middle.symm
  have perm := apart (file.outline next)
  rwa [declarationsOf_outline, enumDeclarationsOf_outline] at perm

theorem mem_declaredNames {file : FileDecl} (next : Cursor) {fullName : String} :
    fullName ∈ file.declaredNames ↔ ∃ item ∈ file.outline next, item.fullName = fullName := by
  rw [← (file.fullNames_perm next).mem_iff, List.mem_map]

end FileDecl

end SchemaRecords.Schema
