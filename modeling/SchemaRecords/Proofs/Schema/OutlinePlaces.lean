import SchemaRecords.Proofs.Schema.SoundDeclaration
import SchemaRecords.Schema.Linking

/-!
# Places in an outline

An outline gives out places while it descends into messages, and a message records the
places of what is declared inside of it before any of that has been listed.  The theorems
here show that the records come true: places are given out without gaps, every recorded
place is that of a message which has the recording one as its parent, and every message
is recorded by its parent.

The property that is carried through the recursion is that of a forest.  It leaves open
which message, if any, the roots of the forest have as their parent; descending into a
message turns the roots inside of it into its recorded children.
-/

namespace SchemaRecords.Schema

/-! ## Roots -/

theorem MessageDecl.messageCount_pos (decl : MessageDecl) : 0 < decl.messageCount := by
  cases decl
  simp only [MessageDecl.messageCount]
  omega

theorem le_of_mem_messageIds {decls : List MessageDecl} {next : Nat} {id : MessageId}
    (member : id ∈ messageIds next decls) : next ≤ id.index := by
  induction decls generalizing next with
  | nil => cases member
  | cons decl rest inductionHypothesis =>
    rcases List.mem_cons.mp member with same | later
    · subst same
      exact Nat.le_refl _
    · have := inductionHypothesis later
      omega

/-- Messages side by side have different places. -/
theorem messageIds_nodup (decls : List MessageDecl) (next : Nat) :
    (messageIds next decls).Nodup := by
  induction decls generalizing next with
  | nil => exact List.nodup_nil
  | cons decl rest inductionHypothesis =>
    refine List.nodup_cons.mpr ⟨fun member => ?_, inductionHypothesis _⟩
    have beyond := le_of_mem_messageIds member
    have := decl.messageCount_pos
    simp only at beyond
    omega

theorem mem_enumerationIds {decls : List EnumDecl} {next : Nat} {id : EnumerationId}
    (member : id ∈ enumerationIds next decls) :
    next ≤ id.index ∧ id.index < next + decls.length := by
  induction decls generalizing next with
  | nil => cases member
  | cons decl rest inductionHypothesis =>
    rcases List.mem_cons.mp member with same | later
    · subst same
      simp only [List.length_cons]
      omega
    · have := inductionHypothesis later
      simp only [List.length_cons]
      omega

/-! ## Forests -/

@[simp] theorem messagesOf_append (first second : List Outlined) :
    messagesOf (first ++ second) = messagesOf first ++ messagesOf second :=
  List.filterMap_append

@[simp] theorem enumerationsOf_append (first second : List Outlined) :
    enumerationsOf (first ++ second) = enumerationsOf first ++ enumerationsOf second :=
  List.filterMap_append

@[simp] theorem messagesOf_message (item : OutlinedMessage) (rest : List Outlined) :
    messagesOf (.message item :: rest) = item :: messagesOf rest := rfl

@[simp] theorem enumerationsOf_message (item : OutlinedMessage) (rest : List Outlined) :
    enumerationsOf (.message item :: rest) = enumerationsOf rest := rfl

/-- An outline whose roots have a given parent and given places.  It takes some places
for messages and some for enumerations, all of them from a cursor on. -/
structure Forest (parent : Option MessageId) (next : Cursor) (roots : List MessageId)
    (messages enumerations : Nat) (outline : List Outlined) : Prop where
  messagePlaces : (messagesOf outline).map (·.id.index) = List.range' next.message messages
  enumerationPlaces :
    (enumerationsOf outline).map (·.id.index) = List.range' next.enumeration enumerations
  parents : ∀ item ∈ messagesOf outline, (item.parent = parent ∧ item.id ∈ roots) ∨
    ∃ outer ∈ messagesOf outline, item.parent = some outer.id ∧ item.id ∈ outer.nestedMessages
  roots : ∀ id ∈ roots, ∃ item ∈ messagesOf outline, item.id = id ∧ item.parent = parent
  nested : ∀ outer ∈ messagesOf outline, ∀ id ∈ outer.nestedMessages,
    ∃ item ∈ messagesOf outline, item.id = id ∧ item.parent = some outer.id
  nestedNodup : ∀ outer ∈ messagesOf outline, outer.nestedMessages.Nodup
  nestedEnumerations : ∀ outer ∈ messagesOf outline, ∀ id ∈ outer.nestedEnumerations,
    id.index < next.enumeration + enumerations
  earlier : ∀ item ∈ messagesOf outline, item.parent = parent ∨
    ∃ outer, item.parent = some outer ∧ outer.index < item.id.index

namespace Forest

variable {parent : Option MessageId} {next : Cursor} {outline : List Outlined}

theorem length_messagesOf {roots : List MessageId} {messages enumerations : Nat}
    (forest : Forest parent next roots messages enumerations outline) :
    (messagesOf outline).length = messages := by
  have := congrArg List.length forest.messagePlaces
  simpa using this

theorem length_enumerationsOf {roots : List MessageId} {messages enumerations : Nat}
    (forest : Forest parent next roots messages enumerations outline) :
    (enumerationsOf outline).length = enumerations := by
  have := congrArg List.length forest.enumerationPlaces
  simpa using this

/-- Where places are given out one after the other, the item at a position has the place that many
places behind the first. -/
theorem place_of_getElem? {α : Type} {items : List α} {place : α → Nat} {first count position : Nat}
    {item : α} (places : items.map place = List.range' first count)
    (found : items[position]? = some item) : place item = first + position := by
  have listed : (items.map place)[position]? = some (place item) := by
    rw [List.getElem?_map, found, Option.map_some]
  rw [places, List.getElem?_eq_some_iff] at listed
  rcases listed with ⟨_, isPlace⟩
  rw [← isPlace, List.getElem_range', Nat.one_mul]

/-- The message listed at a position has the place that many places behind the cursor. -/
theorem id_of_getElem? {roots : List MessageId} {messages enumerations : Nat}
    (forest : Forest parent next roots messages enumerations outline) {position : Nat}
    {item : OutlinedMessage} (found : (messagesOf outline)[position]? = some item) :
    item.id = ⟨next.message + position⟩ := by
  have place := place_of_getElem? forest.messagePlaces found
  cases item_id : item.id with
  | mk index => rw [← place, item_id]

theorem enumerationId_of_getElem? {roots : List MessageId} {messages enumerations : Nat}
    (forest : Forest parent next roots messages enumerations outline) {position : Nat}
    {item : OutlinedEnumeration} (found : (enumerationsOf outline)[position]? = some item) :
    item.id = ⟨next.enumeration + position⟩ := by
  have place := place_of_getElem? forest.enumerationPlaces found
  cases item_id : item.id with
  | mk index => rw [← place, item_id]

theorem le_id {roots : List MessageId} {messages enumerations : Nat}
    (forest : Forest parent next roots messages enumerations outline) {item : OutlinedMessage}
    (member : item ∈ messagesOf outline) :
    next.message ≤ item.id.index ∧ item.id.index < next.message + messages := by
  have listed : item.id.index ∈ (messagesOf outline).map (·.id.index) :=
    List.mem_map.mpr ⟨item, member, rfl⟩
  rw [forest.messagePlaces, List.mem_range'_1] at listed
  exact listed

/-- Two forests side by side, the second on the places behind the first. -/
theorem append {firstRoots secondRoots : List MessageId} {firstMessages secondMessages : Nat}
    {firstEnumerations secondEnumerations : Nat} {first second : List Outlined}
    (left : Forest parent next firstRoots firstMessages firstEnumerations first)
    (right : Forest parent ⟨next.message + firstMessages, next.enumeration + firstEnumerations⟩
      secondRoots secondMessages secondEnumerations second) :
    Forest parent next (firstRoots ++ secondRoots) (firstMessages + secondMessages)
      (firstEnumerations + secondEnumerations) (first ++ second) where
  messagePlaces := by
    rw [messagesOf_append, List.map_append, left.messagePlaces, right.messagePlaces,
      List.range'_append_1]
  enumerationPlaces := by
    rw [enumerationsOf_append, List.map_append, left.enumerationPlaces, right.enumerationPlaces,
      List.range'_append_1]
  parents := by
    intro item member
    rw [messagesOf_append] at member ⊢
    rcases List.mem_append.mp member with before | after
    · rcases left.parents item before with ⟨same, root⟩ | ⟨outer, listed, same, child⟩
      · exact Or.inl ⟨same, List.mem_append_left _ root⟩
      · exact Or.inr ⟨outer, List.mem_append_left _ listed, same, child⟩
    · rcases right.parents item after with ⟨same, root⟩ | ⟨outer, listed, same, child⟩
      · exact Or.inl ⟨same, List.mem_append_right _ root⟩
      · exact Or.inr ⟨outer, List.mem_append_right _ listed, same, child⟩
  roots := by
    intro id member
    rw [messagesOf_append]
    rcases List.mem_append.mp member with before | after
    · rcases left.roots id before with ⟨item, listed, facts⟩
      exact ⟨item, List.mem_append_left _ listed, facts⟩
    · rcases right.roots id after with ⟨item, listed, facts⟩
      exact ⟨item, List.mem_append_right _ listed, facts⟩
  nested := by
    intro outer member id child
    rw [messagesOf_append] at member ⊢
    rcases List.mem_append.mp member with before | after
    · rcases left.nested outer before id child with ⟨item, listed, facts⟩
      exact ⟨item, List.mem_append_left _ listed, facts⟩
    · rcases right.nested outer after id child with ⟨item, listed, facts⟩
      exact ⟨item, List.mem_append_right _ listed, facts⟩
  nestedNodup := by
    intro outer member
    rw [messagesOf_append] at member
    exact (List.mem_append.mp member).elim (left.nestedNodup outer) (right.nestedNodup outer)
  nestedEnumerations := by
    intro outer member id child
    rw [messagesOf_append] at member
    rcases List.mem_append.mp member with before | after
    · have := left.nestedEnumerations outer before id child
      omega
    · have := right.nestedEnumerations outer after id child
      simp only at this
      omega
  earlier := by
    intro item member
    rw [messagesOf_append] at member
    exact (List.mem_append.mp member).elim (left.earlier item) (right.earlier item)

/-- A message around a forest whose roots it records. -/
theorem wrap {roots : List MessageId} {messages enumerations : Nat} {item : OutlinedMessage}
    (inside : Forest (some ⟨next.message⟩) ⟨next.message + 1, next.enumeration⟩ roots messages
      enumerations outline)
    (place : item.id = ⟨next.message⟩) (outer : item.parent = parent)
    (records : item.nestedMessages = roots) (distinct : roots.Nodup)
    (enumerationsInside : ∀ id ∈ item.nestedEnumerations, id.index < next.enumeration + enumerations) :
    Forest parent next [⟨next.message⟩] (messages + 1) enumerations (.message item :: outline) where
  messagePlaces := by
    rw [messagesOf_message, List.map_cons, inside.messagePlaces, place, List.range'_succ]
  enumerationPlaces := by
    rw [enumerationsOf_message]
    exact inside.enumerationPlaces
  parents := by
    intro other member
    rw [messagesOf_message] at member ⊢
    rcases List.mem_cons.mp member with same | later
    · subst same
      exact Or.inl ⟨outer, List.mem_singleton.mpr place⟩
    · apply Or.inr
      rcases inside.parents other later with ⟨same, root⟩ | ⟨holder, listed, same, child⟩
      · exact ⟨item, List.mem_cons_self, place ▸ same, records ▸ root⟩
      · exact ⟨holder, List.mem_cons_of_mem _ listed, same, child⟩
  roots := by
    intro id member
    refine ⟨item, List.mem_cons_self, ?_, outer⟩
    rw [place, List.mem_singleton.mp member]
  nested := by
    intro holder member id child
    rw [messagesOf_message] at member ⊢
    rcases List.mem_cons.mp member with same | later
    · subst same
      rcases inside.roots id (records ▸ child) with ⟨other, listed, isRoot, itsParent⟩
      exact ⟨other, List.mem_cons_of_mem _ listed, isRoot, place ▸ itsParent⟩
    · rcases inside.nested holder later id child with ⟨other, listed, facts⟩
      exact ⟨other, List.mem_cons_of_mem _ listed, facts⟩
  nestedNodup := by
    intro holder member
    rw [messagesOf_message] at member
    rcases List.mem_cons.mp member with same | later
    · subst same
      exact records ▸ distinct
    · exact inside.nestedNodup holder later
  nestedEnumerations := by
    intro holder member id child
    rw [messagesOf_message] at member
    rcases List.mem_cons.mp member with same | later
    · subst same
      exact enumerationsInside id child
    · exact inside.nestedEnumerations holder later id child
  earlier := by
    intro other member
    rw [messagesOf_message] at member
    rcases List.mem_cons.mp member with same | later
    · subst same
      exact Or.inl outer
    · apply Or.inr
      rcases inside.earlier other later with root | deeper
      · have := (inside.le_id later).1
        exact ⟨⟨next.message⟩, root, this⟩
      · exact deeper

end Forest

/-! ## Outlines are forests -/

theorem messagesOf_outlineEnumerations (scope : String) (decls : List EnumDecl) (next : Nat) :
    messagesOf (outlineEnumerations scope next decls) = [] := by
  induction decls generalizing next with
  | nil => rfl
  | cons decl rest inductionHypothesis => exact inductionHypothesis (next + 1)

theorem enumerationsOf_outlineEnumerations (scope : String) (decls : List EnumDecl) (next : Nat) :
    (enumerationsOf (outlineEnumerations scope next decls)).map (·.id.index) =
      List.range' next decls.length := by
  induction decls generalizing next with
  | nil => rfl
  | cons decl rest inductionHypothesis =>
    rw [List.length_cons, List.range'_succ, ← inductionHypothesis]
    rfl

theorem outlineEnumerations_forest (scope : String) (parent : Option MessageId) (next : Cursor)
    (decls : List EnumDecl) :
    Forest parent next [] 0 decls.length (outlineEnumerations scope next.enumeration decls) := by
  have none := messagesOf_outlineEnumerations scope decls next.enumeration
  constructor
  · rw [none]
    rfl
  · exact enumerationsOf_outlineEnumerations scope decls next.enumeration
  all_goals
    intro item member
    first | rw [none] at member | skip
    cases member

mutual

theorem MessageDecl.outline_forest (scope : String) (parent : Option MessageId) (next : Cursor) :
    (decl : MessageDecl) → Forest parent next [⟨next.message⟩] decl.messageCount
      decl.enumerationCount (decl.outline scope parent next)
  | ⟨name, fields, oneofs, messages, enums, place⟩ => by
    have enumerations := outlineEnumerations_forest (qualify scope name) (some ⟨next.message⟩)
      ⟨next.message + 1, next.enumeration⟩ enums
    have inside := enumerations.append
      (outlineMessages_forest (qualify scope name) (some ⟨next.message⟩)
        ⟨next.message + 1, next.enumeration + enums.length⟩ messages)
    rw [List.nil_append, Nat.zero_add] at inside
    refine inside.wrap rfl rfl rfl (messageIds_nodup messages _) fun id member => ?_
    have := (mem_enumerationIds member).2
    omega

theorem outlineMessages_forest (scope : String) (parent : Option MessageId) (next : Cursor) :
    (decls : List MessageDecl) → Forest parent next (messageIds next.message decls)
      (messageCounts decls) (enumerationCounts decls) (outlineMessages scope parent next decls)
  | [] => outlineEnumerations_forest scope parent next []
  | decl :: rest =>
    (decl.outline_forest scope parent next).append
      (outlineMessages_forest scope parent
        ⟨next.message + decl.messageCount, next.enumeration + decl.enumerationCount⟩ rest)

end

/-- The outline of a text is a forest whose roots are the messages outside of any other. -/
theorem FileDecl.outline_forest (file : FileDecl) (next : Cursor) :
    Forest none next (messageIds next.message file.messages) (messageCounts file.messages)
      (file.enums.length + enumerationCounts file.messages) (file.outline next) := by
  have both := (outlineEnumerations_forest file.scope none next file.enums).append
    (outlineMessages_forest file.scope none
      ⟨next.message + 0, next.enumeration + file.enums.length⟩ file.messages)
  rw [List.nil_append, Nat.zero_add] at both
  exact both

/-! ## What is listed has been declared -/


/-- Every declaration in an outline obeys the rules. -/
def Outlined.Sound : Outlined → Prop
  | .message item => item.decl.Sound
  | .enumeration item => item.decl.Sound

theorem outlineEnumerations_sound {scope : String} {decls : List EnumDecl} {next : Nat}
    (sound : ∀ decl ∈ decls, decl.Sound) :
    ∀ item ∈ outlineEnumerations scope next decls, item.Sound := by
  induction decls generalizing next with
  | nil => exact fun _ member => absurd member List.not_mem_nil
  | cons decl rest inductionHypothesis =>
    intro item member
    rcases List.mem_cons.mp member with same | later
    · subst same
      exact sound decl List.mem_cons_self
    · exact inductionHypothesis (fun other listed => sound other (List.mem_cons_of_mem _ listed))
        item later

mutual

theorem MessageDecl.outline_sound (scope : String) (parent : Option MessageId) (next : Cursor) :
    (decl : MessageDecl) → decl.Sound → ∀ item ∈ decl.outline scope parent next, item.Sound
  | ⟨name, fields, oneofs, messages, enums, place⟩, sound => by
    intro item member
    rcases List.mem_cons.mp member with same | inside
    · subst same
      exact sound
    · rcases List.mem_append.mp inside with enumeration | message
      · exact outlineEnumerations_sound sound.enums item enumeration
      · exact outlineMessages_sound _ _ _ messages sound.messages item message

theorem outlineMessages_sound (scope : String) (parent : Option MessageId) (next : Cursor) :
    (decls : List MessageDecl) → (∀ decl ∈ decls, decl.Sound) →
      ∀ item ∈ outlineMessages scope parent next decls, item.Sound
  | [], _ => fun _ member => absurd member List.not_mem_nil
  | decl :: rest, sound => by
    intro item member
    rcases List.mem_append.mp member with first | later
    · exact decl.outline_sound scope parent next (sound decl List.mem_cons_self) item first
    · exact outlineMessages_sound scope parent _ rest
        (fun other listed => sound other (List.mem_cons_of_mem _ listed)) item later

end

theorem FileDecl.outline_sound {file : FileDecl} (sound : file.Sound) (next : Cursor) :
    ∀ item ∈ file.outline next, item.Sound := by
  intro item member
  rcases List.mem_append.mp member with enumeration | message
  · exact outlineEnumerations_sound sound.enums item enumeration
  · exact outlineMessages_sound _ _ _ file.messages sound.messages item message

end SchemaRecords.Schema
