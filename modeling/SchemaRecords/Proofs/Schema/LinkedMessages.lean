import SchemaRecords.Proofs.Schema.LinkedFields

/-!
# What linking the messages of a unit yields

Each outlined message becomes the message at the same position.  Its fields keep the order
in which they are declared, so filing their positions under their numbers and names, and
under the oneofs they belong to, makes tables that agree with the list of fields.
-/

namespace SchemaRecords.Schema

/-! ## Filing fields -/

/-- Where fields differ in their keys, a key is filed with the position of its field. -/
theorem find?_positions {Key : Type} [DecidableEq Key] {key : Field → Key} {fields : List Field}
    (distinct : (fields.map key).Nodup) (wanted : Key) (position : Nat) :
    (positions key fields).find? wanted = some position ↔
      ∃ field, fields[position]? = some field ∧ key field = wanted := by
  have keys : (fields.zipIdx.map fun entry => (key entry.1, entry.2)).map (·.1) = fields.map key := by
    rw [List.map_map, ← List.zipIdx_map_fst 0 fields, List.map_map, List.zipIdx_map_fst]
    rfl
  rw [positions, Table.find?_ofList_eq_some_iff (keys ▸ distinct)]
  simp only [List.mem_map, Prod.exists, Prod.mk.injEq, List.mk_mem_zipIdx_iff_getElem?]
  constructor
  · rintro ⟨field, place, found, same, there⟩
    exact ⟨field, there ▸ found, same⟩
  · rintro ⟨field, found, same⟩
    exact ⟨field, position, found, same, rfl⟩

/-- A oneof lists the positions of the fields that belong to it. -/
theorem members_groupOneofs {names : List String} {fields : List Field} {index : Nat} {oneof : Oneof}
    (found : (groupOneofs names fields)[index]? = some oneof) :
    oneof.members =
      (fields.zipIdx.filter fun field => field.1.oneof = some index).map (·.2) := by
  rw [groupOneofs, List.getElem?_map, Option.map_eq_some_iff] at found
  rcases found with ⟨⟨name, place⟩, listed, same⟩
  have there := List.mk_mem_zipIdx_iff_getElem?.mp (List.mem_of_getElem? listed)
  rw [List.getElem?_zipIdx, Option.map_eq_some_iff] at listed
  rcases listed with ⟨_, _, pair⟩
  simp only [Nat.zero_add, Prod.mk.injEq] at pair
  rw [← same, pair.2]

theorem positions_nodup (fields : List Field) (select : Field × Nat → Bool) :
    ((fields.zipIdx.filter select).map (·.2)).Nodup := by
  apply List.Nodup.sublist (List.filter_sublist.map _)
  rw [List.zipIdx_map_snd]
  exact List.nodup_range'

/-- A message whose fields have been filed. -/
theorem Message.withFields_indexed (message : Message) {fields : List Field} {oneofs : List String}
    (numbers : ∀ field ∈ fields, LegalNumber field.number)
    (numbersDistinct : (fields.map (·.number)).Nodup)
    (namesDistinct : (fields.map (·.name)).Nodup)
    (inRange : ∀ field ∈ fields, ∀ index, field.oneof = some index → index < oneofs.length) :
    (message.withFields fields oneofs).Indexed where
  numbers := numbers
  numbersDistinct := numbersDistinct
  namesDistinct := namesDistinct
  byNumber := find?_positions numbersDistinct
  byName := find?_positions namesDistinct
  oneofs := by
    intro index oneof found position
    rw [members_groupOneofs found]
    simp only [List.mem_map, List.mem_filter, Prod.exists, List.mk_mem_zipIdx_iff_getElem?,
      decide_eq_true_eq]
    constructor
    · rintro ⟨field, place, ⟨listed, belongs⟩, there⟩
      exact ⟨field, there ▸ listed, belongs⟩
    · rintro ⟨field, listed, belongs⟩
      exact ⟨field, position, ⟨listed, belongs⟩, rfl⟩
  oneofMembersDistinct := by
    intro oneof member
    rcases List.mem_iff_getElem?.mp member with ⟨index, found⟩
    rw [members_groupOneofs found]
    exact positions_nodup fields _
  oneofsInRange := by
    intro field member index belongs
    have : (message.withFields fields oneofs).oneofs.length = oneofs.length := by
      simp only [withFields, groupOneofs, List.length_map, List.length_zipIdx]
    rw [this]
    exact inRange field member index belongs

theorem FieldsSound.indexed {context : FieldContext} {next : Nat} {oneofs : List String}
    {fields : List Field} {entries : List Message}
    (sound : FieldsSound context next oneofs.length fields entries) (message : Message) :
    (message.withFields fields oneofs).Indexed :=
  message.withFields_indexed sound.numbers sound.numbersDistinct sound.namesDistinct
    sound.oneofsInRange

/-! ## Entries -/

/-- The key and the value of an entry can be told apart. -/
theorem FieldContext.Makes.indexed {context : FieldContext} {entry : Message}
    (made : context.Makes entry) : entry.Indexed := by
  rcases made with ⟨id, field, key, type, _, _, same⟩
  subst same
  apply Message.withFields_indexed _
  · intro part member
    rcases List.mem_cons.mp member with first | rest
    · rw [first]
      exact (by decide : LegalNumber 1)
    · rw [List.mem_singleton.mp rest]
      exact (by decide : LegalNumber 2)
  · exact (by decide : [1, 2].Nodup)
  · exact (by decide : ["key", "value"].Nodup)
  · intro part member index belongs
    rcases List.mem_cons.mp member with first | rest
    · rw [first] at belongs
      cases belongs
    · rw [List.mem_singleton.mp rest] at belongs
      cases belongs

theorem FieldContext.Makes.isEntry {context : FieldContext} {entry : Message}
    (made : context.Makes entry) : entry.IsEntry := by
  rcases made with ⟨id, field, key, type, legal, _, same⟩
  subst same
  exact ⟨rfl, key, type, legal, rfl⟩

/-! ## One message after the other -/

/-- What the fields of an outlined message are linked in. -/
def OutlinedMessage.context (item : OutlinedMessage) (env : Environment) (dialect : Dialect)
    (unit : UnitId) : FieldContext :=
  ⟨env, dialect, unit, item.id, item.fullName⟩

/-- A message that an outlined message is linked to, and its entries are among some. -/
def OutlinedMessage.LinksTo (env : Environment) (dialect : Dialect) (unit : UnitId)
    (entries : List Message) (item : OutlinedMessage) (message : Message) : Prop :=
  ∃ next fields own,
    FieldsSound (item.context env dialect unit) next item.decl.oneofs.length fields own ∧
      own ⊆ entries ∧ message = (item.stub unit).withFields fields item.decl.oneofs

/-- The messages and the entries that outlined messages are linked to. -/
structure MessagesSound (env : Environment) (dialect : Dialect) (unit : UnitId) (next : Nat)
    (items : List OutlinedMessage) (messages entries : List Message) : Prop where
  length : messages.length = items.length
  messages : ∀ (position : Nat) (item : OutlinedMessage) (message : Message),
    items[position]? = some item → messages[position]? = some message →
      item.LinksTo env dialect unit entries message
  entryPlaces : ∀ (position : Nat) (entry : Message), entries[position]? = some entry →
    entry.id = ⟨next + position⟩
  entries : ∀ entry ∈ entries, ∃ item ∈ items, (item.context env dialect unit).Makes entry

theorem linkMessages_sound {env : Environment} {dialect : Dialect} {unit : UnitId} {next : Nat}
    {items : List OutlinedMessage} {messages entries : List Message}
    (declared : ∀ item ∈ items, item.decl.Sound)
    (linked : linkMessages env dialect unit next items = .ok (messages, entries)) :
    MessagesSound env dialect unit next items messages entries := by
  induction items generalizing next messages entries with
  | nil =>
    cases linked
    exact
      { length := rfl
        messages := fun _ _ _ listed => nomatch listed
        entryPlaces := fun _ _ found => nomatch found
        entries := fun _ member => nomatch member }
  | cons item rest inductionHypothesis =>
    rcases Outcome.bind_eq_ok_iff.mp linked with ⟨⟨fields, own⟩, first, linked⟩
    rcases Outcome.bind_eq_ok_iff.mp linked with ⟨⟨others, later⟩, second, result⟩
    cases result
    have head := linkFields_sound (declared item List.mem_cons_self).fields
      (FieldsSound.nil _ next _) first
    have tail := inductionHypothesis
      (fun other member => declared other (List.mem_cons_of_mem _ member)) second
    refine ⟨congrArg (· + 1) tail.length, ?_, ?_, ?_⟩
    · intro position other message listed found
      cases position with
      | zero =>
        cases listed
        cases found
        exact ⟨next, fields, own, head, List.subset_append_left _ _, rfl⟩
      | succ position =>
        rcases tail.messages position other message listed found with
          ⟨start, itsFields, itsEntries, sound, among, same⟩
        exact ⟨start, itsFields, itsEntries, sound,
          fun entry member => List.mem_append_right _ (among member), same⟩
    · intro position entry found
      rcases Pool.getElem?_append_iff.mp found with mine | ⟨beyond, there, theirs⟩
      · exact head.entryPlaces position entry mine
      · rw [tail.entryPlaces beyond entry theirs, there, Nat.add_assoc]
    · intro entry member
      rcases List.mem_append.mp member with mine | theirs
      · exact ⟨item, List.mem_cons_self, head.entries entry mine⟩
      · rcases tail.entries entry theirs with ⟨other, listed, made⟩
        exact ⟨other, List.mem_cons_of_mem _ listed, made⟩

end SchemaRecords.Schema
