import SchemaRecords.Schema.Descriptor

/-!
# Outlines

The outline of a schema text lists every message and enumeration it declares, at any
depth, under its full name and with the place it will have in a pool.  A message comes
before what is declared inside of it, and the enumerations of a scope come before its
messages.  Faults of a unit are looked for in this order, and places are given out in
this order too, for messages and enumerations apart.
-/

namespace SchemaRecords.Schema

/-- The next places to be given out. -/
structure Cursor where
  message : Nat
  enumeration : Nat
  deriving DecidableEq, Repr

/-- A message in an outline, with the places of what is declared inside of it. -/
structure OutlinedMessage where
  id : MessageId
  fullName : String
  parent : Option MessageId
  nestedMessages : List MessageId
  nestedEnumerations : List EnumerationId
  decl : MessageDecl
  deriving Repr

/-- An enumeration in an outline. -/
structure OutlinedEnumeration where
  id : EnumerationId
  fullName : String
  decl : EnumDecl
  deriving DecidableEq, Repr

/-- A declaration in an outline. -/
inductive Outlined where
  | message (item : OutlinedMessage)
  | enumeration (item : OutlinedEnumeration)
  deriving Repr

namespace Outlined

/-- The full name of a declaration. -/
def fullName : Outlined → String
  | .message item => item.fullName
  | .enumeration item => item.fullName

/-- What the full name of a declaration stands for. -/
def symbol : Outlined → Symbol
  | .message item => .message item.id
  | .enumeration item => .enumeration item.id

/-- The message that a declaration is, if it is one. -/
def message? : Outlined → Option OutlinedMessage
  | .message item => some item
  | .enumeration _ => none

/-- The enumeration that a declaration is, if it is one. -/
def enumeration? : Outlined → Option OutlinedEnumeration
  | .message _ => none
  | .enumeration item => some item

end Outlined

/-- The messages of an outline. -/
def messagesOf (outline : List Outlined) : List OutlinedMessage :=
  outline.filterMap Outlined.message?

/-- The enumerations of an outline. -/
def enumerationsOf (outline : List Outlined) : List OutlinedEnumeration :=
  outline.filterMap Outlined.enumeration?

/-! ## Places -/

mutual

/-- How many messages a declaration makes, itself included. -/
def MessageDecl.messageCount : MessageDecl → Nat
  | ⟨_, _, _, messages, _, _⟩ => messageCounts messages + 1

/-- How many messages some declarations make. -/
def messageCounts : List MessageDecl → Nat
  | [] => 0
  | decl :: rest => decl.messageCount + messageCounts rest

end

mutual

/-- How many enumerations are declared inside a message. -/
def MessageDecl.enumerationCount : MessageDecl → Nat
  | ⟨_, _, _, messages, enums, _⟩ => enums.length + enumerationCounts messages

/-- How many enumerations are declared inside some messages. -/
def enumerationCounts : List MessageDecl → Nat
  | [] => 0
  | decl :: rest => decl.enumerationCount + enumerationCounts rest

end

/-- The places of messages that are declared side by side. -/
def messageIds (next : Nat) : List MessageDecl → List MessageId
  | [] => []
  | decl :: rest => ⟨next⟩ :: messageIds (next + decl.messageCount) rest

/-- The places of enumerations that are declared side by side. -/
def enumerationIds (next : Nat) : List EnumDecl → List EnumerationId
  | [] => []
  | _ :: rest => ⟨next⟩ :: enumerationIds (next + 1) rest

/-! ## Listing -/

/-- The enumerations of a scope. -/
def outlineEnumerations (scope : String) (next : Nat) : List EnumDecl → List Outlined
  | [] => []
  | decl :: rest =>
    .enumeration ⟨⟨next⟩, qualify scope decl.name, decl⟩ :: outlineEnumerations scope (next + 1) rest

mutual

/-- A message of a scope and everything inside of it. -/
def MessageDecl.outline (scope : String) (parent : Option MessageId) (next : Cursor) :
    MessageDecl → List Outlined
  | ⟨name, fields, oneofs, messages, enums, place⟩ =>
    let fullName := qualify scope name
    .message ⟨⟨next.message⟩, fullName, parent, messageIds (next.message + 1) messages,
        enumerationIds next.enumeration enums, ⟨name, fields, oneofs, messages, enums, place⟩⟩ ::
      (outlineEnumerations fullName next.enumeration enums ++
        outlineMessages fullName (some ⟨next.message⟩)
          ⟨next.message + 1, next.enumeration + enums.length⟩ messages)

/-- The messages of a scope and everything inside of them. -/
def outlineMessages (scope : String) (parent : Option MessageId) (next : Cursor) :
    List MessageDecl → List Outlined
  | [] => []
  | decl :: rest =>
    decl.outline scope parent next ++
      outlineMessages scope parent
        ⟨next.message + decl.messageCount, next.enumeration + decl.enumerationCount⟩ rest

end

namespace FileDecl

/-- The outermost scope of a text: its package, if it has one. -/
def scope (file : FileDecl) : String := file.package.getD ""

/-- Everything that a text declares, given the next places. -/
def outline (file : FileDecl) (next : Cursor) : List Outlined :=
  outlineEnumerations file.scope next.enumeration file.enums ++
    outlineMessages file.scope none ⟨next.message, next.enumeration + file.enums.length⟩
      file.messages

end FileDecl
end SchemaRecords.Schema
