import SchemaRecords.Proofs.Schema.LinkedUnits
import SchemaRecords.Schema.IndexPath

/-!
# Index paths through declarations

An index path counts the messages of a schema text as they are written.  Following it in the
tree of declarations needs neither places nor a pool: each index picks one of the messages
that are declared side by side, and the next one picks among those inside of it.

Resolution follows the places that descriptors record instead.  The outline gives these out
while it descends, so the place recorded at a position is that of the declaration at the same
position, and behind it lies everything that is declared inside.  Following a path therefore
reaches the descriptor of a declaration exactly where the declarations have one.
-/

namespace SchemaRecords.Schema

/-! ## Following a path -/

/-- The names of the messages that a path passes, from declarations that stand side by side.
There are none if an index of the path is negative or counts further than there are messages. -/
def followPath? : (decls : List MessageDecl) → (path : List Int) → Option (List String)
  | _, [] => some []
  | decls, index :: rest =>
    match elementAt? decls index with
    | none => none
    | some decl => (followPath? decl.messages rest).map (decl.name :: ·)

/-- The message that a path selects in a text: the names on the way, joined behind the
package, or the position of the first index that cannot be followed. -/
inductive FileDecl.Selects (file : FileDecl) (path : List Int) :
    Except ResolveError String → Prop
  | found {names : List String} (followed : followPath? file.messages path = some names) :
      Selects file path (.ok (names.foldl qualify file.scope))
  | lost {position : Nat} (within : position < path.length)
      (before : (followPath? file.messages (path.take position)).isSome = true)
      (here : followPath? file.messages (path.take (position + 1)) = none) :
      Selects file path (.error (.indexOutOfRange position))

/-- A path that cannot be followed has a first index that cannot. -/
theorem exists_lost_position {decls : List MessageDecl} {path : List Int}
    (lost : followPath? decls path = none) :
    ∃ position, position < path.length ∧
      (followPath? decls (path.take position)).isSome = true ∧
      followPath? decls (path.take (position + 1)) = none := by
  induction path generalizing decls with
  | nil => cases lost
  | cons index rest inductionHypothesis =>
    cases picked : elementAt? decls index with
    | none =>
      refine ⟨0, Nat.succ_pos _, rfl, ?_⟩
      simp only [List.take_succ_cons, followPath?, picked]
    | some decl =>
      simp only [followPath?, picked, Option.map_eq_none_iff] at lost
      rcases inductionHypothesis lost with ⟨position, within, before, here⟩
      refine ⟨position + 1, Nat.succ_lt_succ within, ?_, ?_⟩
      · simpa only [List.take_succ_cons, followPath?, picked, Option.isSome_map] using before
      · simpa only [List.take_succ_cons, followPath?, picked, Option.map_eq_none_iff] using here

/-! ## Declarations and their places -/

theorem length_messageIds (decls : List MessageDecl) (next : Nat) :
    (messageIds next decls).length = decls.length := by
  induction decls generalizing next with
  | nil => rfl
  | cons decl rest inductionHypothesis =>
    rw [messageIds, List.length_cons, List.length_cons, inductionHypothesis]

/-- Where a declaration stands at a position, the place at this position is the first of those
that its outline takes. -/
theorem outline_of_getElem? (scope : String) (parent : Option MessageId)
    {decls : List MessageDecl} (next : Cursor) {position : Nat} {decl : MessageDecl}
    (listed : decls[position]? = some decl) :
    ∃ cursor : Cursor, (messageIds next.message decls)[position]? = some ⟨cursor.message⟩ ∧
      decl.outline scope parent cursor ⊆ outlineMessages scope parent next decls := by
  induction decls generalizing next position with
  | nil => cases listed
  | cons first rest inductionHypothesis =>
    rw [outlineMessages, messageIds]
    cases position with
    | zero =>
      cases listed
      exact ⟨next, rfl, List.subset_append_left _ _⟩
    | succ position =>
      rcases inductionHypothesis
          ⟨next.message + first.messageCount, next.enumeration + first.enumerationCount⟩ listed with
        ⟨cursor, place, inside⟩
      exact ⟨cursor, place, fun item member => List.mem_append_right _ (inside member)⟩

/-- As `outline_of_getElem?`, for an index of a path. -/
theorem outline_of_elementAt? (scope : String) (parent : Option MessageId)
    {decls : List MessageDecl} (next : Cursor) {index : Int} {decl : MessageDecl}
    (picked : elementAt? decls index = some decl) :
    ∃ cursor : Cursor,
      elementAt? (messageIds next.message decls) index = some ⟨cursor.message⟩ ∧
        decl.outline scope parent cursor ⊆ outlineMessages scope parent next decls := by
  cases index with
  | ofNat position => exact outline_of_getElem? scope parent next picked
  | negSucc position => cases picked

theorem elementAt?_messageIds_eq_none {decls : List MessageDecl} {index : Int}
    (absent : elementAt? decls index = none) (next : Nat) :
    elementAt? (messageIds next decls) index = none := by
  cases index with
  | ofNat position =>
    simp only [elementAt?, List.getElem?_eq_none_iff, length_messageIds] at absent ⊢
    exact absent
  | negSucc position => rfl

/-! ## Following a path in a pool -/

/-- A pool holds an outline if every message in the outline has its descriptor there: at the
first place of what the message outlines, under its full name, and with the places of the
messages that are declared inside. -/
def Pool.Holds (pool : Pool) (outline : List Outlined) : Prop :=
  ∀ scope parent cursor (decl : MessageDecl), decl.outline scope parent cursor ⊆ outline →
    ∃ message, pool.message? ⟨cursor.message⟩ = some message ∧
      message.fullName = qualify scope decl.name ∧
      message.nestedMessages = messageIds (cursor.message + 1) decl.messages

theorem Linked.holds {pool : Pool} {unitName : String} {file : FileDecl}
    {imports : List (UnitId × Bool)} {messages entries : List Message}
    (run : Linked pool unitName file imports messages entries) :
    run.grown.Holds (file.outline pool.cursor) := by
  intro scope parent cursor decl inside
  rcases decl with ⟨name, fields, oneofs, inner, enums, place⟩
  have first := inside List.mem_cons_self
  have listed : _ ∈ run.items := List.mem_filterMap.mpr ⟨_, first, rfl⟩
  rcases run.message_of_item listed with ⟨message, _, found, _, _, _, _, _, same⟩
  exact ⟨message, found, same ▸ rfl, same ▸ rfl⟩

theorem Pool.Holds.mono {pool grown : Pool} (kept : grown.Extends pool) {outline : List Outlined}
    (holds : pool.Holds outline) : grown.Holds outline := by
  intro scope parent cursor decl inside
  rcases holds scope parent cursor decl inside with ⟨message, found, facts⟩
  exact ⟨message, kept.message _ _ found, facts⟩

/-- What lies inside a message of an outline is outlined behind it. -/
theorem MessageDecl.outline_inside {scope : String} {parent : Option MessageId} {cursor : Cursor}
    {decl : MessageDecl} {outline : List Outlined}
    (inside : decl.outline scope parent cursor ⊆ outline) :
    outlineMessages (qualify scope decl.name) (some ⟨cursor.message⟩)
      ⟨cursor.message + 1, cursor.enumeration + decl.enums.length⟩ decl.messages ⊆ outline := by
  rcases decl with ⟨name, fields, oneofs, inner, enums, place⟩
  exact fun item member =>
    inside (List.mem_cons_of_mem _ (List.mem_append_right _ member))

/-- An index picks the same among declarations side by side and among their places. -/
theorem Pool.Holds.messageAt? {pool : Pool} {outline : List Outlined} (holds : pool.Holds outline)
    {scope : String} {parent : Option MessageId} {next : Cursor} {decls : List MessageDecl}
    (inside : outlineMessages scope parent next decls ⊆ outline) {index : Int}
    {decl : MessageDecl} (picked : elementAt? decls index = some decl) :
    ∃ cursor message, decl.outline scope parent cursor ⊆ outline ∧
      pool.messageAt? (messageIds next.message decls) index = some message ∧
      message.fullName = qualify scope decl.name ∧
      message.nestedMessages = messageIds (cursor.message + 1) decl.messages := by
  rcases outline_of_elementAt? scope parent next picked with ⟨cursor, place, among⟩
  have outlined := List.Subset.trans among inside
  rcases holds scope parent cursor decl outlined with ⟨message, found, facts⟩
  refine ⟨cursor, message, outlined, ?_, facts⟩
  rw [Pool.messageAt?, place, Option.bind_some, found]

/-- A path that can be followed from a declaration leads from its descriptor to the descriptor
of the same name, by induction on the path. -/
theorem Pool.Holds.descend_followed {pool : Pool} {outline : List Outlined}
    (holds : pool.Holds outline) {scope : String} {parent : Option MessageId} {cursor : Cursor}
    {decl : MessageDecl} (inside : decl.outline scope parent cursor ⊆ outline) {message : Message}
    (fullName : message.fullName = qualify scope decl.name)
    (nested : message.nestedMessages = messageIds (cursor.message + 1) decl.messages)
    (start : Nat) {path : List Int} {names : List String}
    (followed : followPath? decl.messages path = some names) :
    (pool.descend message start path).map (·.fullName) =
      .ok (names.foldl qualify (qualify scope decl.name)) := by
  induction path generalizing scope parent cursor decl message start names with
  | nil =>
    cases followed
    exact congrArg Except.ok fullName
  | cons index rest inductionHypothesis =>
    cases picked : elementAt? decl.messages index with
    | none =>
      simp only [followPath?, picked] at followed
      cases followed
    | some inner =>
      simp only [followPath?, picked] at followed
      rcases Option.map_eq_some_iff.mp followed with ⟨others, later, same⟩
      subst same
      rcases holds.messageAt? (decl.outline_inside inside) picked with
        ⟨place, reached, outlined, found, itsName, itsNested⟩
      simp only [Pool.descend, nested, found]
      exact inductionHypothesis outlined itsName itsNested (start + 1) later

/-- A path that cannot be followed from a declaration gets lost at the same position behind
its descriptor, by induction on the path. -/
theorem Pool.Holds.descend_lost {pool : Pool} {outline : List Outlined}
    (holds : pool.Holds outline) {scope : String} {parent : Option MessageId} {cursor : Cursor}
    {decl : MessageDecl} (inside : decl.outline scope parent cursor ⊆ outline) {message : Message}
    (nested : message.nestedMessages = messageIds (cursor.message + 1) decl.messages)
    (start : Nat) {path : List Int} {position : Nat}
    (before : (followPath? decl.messages (path.take position)).isSome = true)
    (here : followPath? decl.messages (path.take (position + 1)) = none) :
    pool.descend message start path = .error (.indexOutOfRange (start + position)) := by
  induction path generalizing scope parent cursor decl message start position with
  | nil =>
    rw [List.take_nil] at here
    cases here
  | cons index rest inductionHypothesis =>
    cases picked : elementAt? decl.messages index with
    | none =>
      cases position with
      | zero =>
        simp only [Pool.descend, Pool.messageAt?, nested, elementAt?_messageIds_eq_none picked,
          Option.bind_none, Nat.add_zero]
      | succ position =>
        simp only [List.take_succ_cons, followPath?, picked] at before
        cases before
    | some inner =>
      rcases holds.messageAt? (decl.outline_inside inside) picked with
        ⟨place, reached, outlined, found, _, itsNested⟩
      simp only [Pool.descend, nested, found]
      cases position with
      | zero =>
        simp only [List.take_succ_cons, List.take_zero, followPath?, picked] at here
        cases here
      | succ position =>
        simp only [List.take_succ_cons, followPath?, picked, Option.isSome_map,
          Option.map_eq_none_iff] at before here
        rw [inductionHypothesis outlined itsNested (start + 1) before here, Nat.add_right_comm,
          Nat.add_assoc]

end SchemaRecords.Schema
