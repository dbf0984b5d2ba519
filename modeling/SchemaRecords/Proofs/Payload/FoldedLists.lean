import SchemaRecords.Payload.Decoding
import SchemaRecords.Proofs.Json.DistinctKeys
import SchemaRecords.Proofs.Schema.FieldLookups

/-!
# Folding lists into maps

A list of the messages that the entries of a map are becomes the map again when it is folded from
left to right.  Each message gives its key in the form of a text, or the zero of its type if it has
none, and its value, or what is shown for a missing value.  A later entry with a known key replaces
the value of the earlier one where it stands.

The messages in a document may have such lists too, so a whole document is folded, from its inner
parts outwards.  What to do with a value is known from the shape of its field, and the members of an
object have the shapes of the fields of their message.
-/

namespace SchemaRecords.Payload

open SchemaRecords.Json SchemaRecords.Schema

/-! ## Entries of a list -/

/-- What is shown where an entry has no value: a default, or the document of an empty payload. -/
def missingValue (pool : Pool) (options : Options) (type : ValueType) : Json.Value :=
  (decodeMissing pool (decodeWithin pool options nestingLimit) type).toOption.getD .null

/-- The entry of a map that an object of a list stands for. -/
def memberOfItem (pool : Pool) (options : Options) (id : MessageId) (item : Json.Value) :
    String × Json.Value :=
  match (pool.message? id).map (·.fields), item with
  | some [key, value], .object members =>
    (keyText ((members.lookup (options.key key)).getD (renderDefault pool key.type)),
      (members.lookup (options.key value)).getD (missingValue pool options value.type))
  | _, _ => ("", .null)

/-- The entries of a map that the objects of a list stand for. -/
def membersOfItems (pool : Pool) (options : Options) (id : MessageId) (items : List Json.Value) :
    Members :=
  Members.insertAll [] (items.map (memberOfItem pool options id))

/-! ## Documents -/

/-- The shapes of the members of an object: of a message those of its fields, of a map that of the
values in its entries. -/
def memberShape? (pool : Pool) (options : Options) (shape : Shape) (key : String) : Option Shape :=
  match shape with
  | .singular (.message id) _ =>
    (pool.message? id).bind fun message =>
      (message.fields.find? fun field => options.key field = key).map (·.shape)
  | .map id => (pool.message? id).bind fun entry => (entry.fieldByNumber? 2).map (·.shape)
  | _ => none

mutual

/-- A value of some shape with all lists of entries folded. -/
def foldValue (pool : Pool) (options : Options) (shape : Shape) : Json.Value → Json.Value
  | .object members => .object (foldMembers pool options (memberShape? pool options shape) members)
  | .array items =>
    match shape with
    | .map id =>
      .object (membersOfItems pool options id
        (foldItems pool options (.singular (.message id) false) items))
    | .repeated type _ => .array (foldItems pool options (.singular type false) items)
    | .singular _ _ => .array items
  | value => value

/-- Items of some shape. -/
def foldItems (pool : Pool) (options : Options) (shape : Shape) : List Json.Value → List Json.Value
  | [] => []
  | item :: rest => foldValue pool options shape item :: foldItems pool options shape rest

/-- Members, each of the shape that its name has. -/
def foldMembers (pool : Pool) (options : Options) (shapeOf : String → Option Shape) :
    List (String × Json.Value) → List (String × Json.Value)
  | [] => []
  | (name, value) :: rest =>
    (name, match shapeOf name with
      | some shape => foldValue pool options shape value
      | none => value) :: foldMembers pool options shapeOf rest

end

/-- A document of a message with all lists of entries folded. -/
def foldDocument (pool : Pool) (options : Options) (message : Message) (document : Json.Value) :
    Json.Value :=
  foldValue pool options (.singular (.message message.id) false) document

section Folds

variable {pool : Pool} {options : Options}

theorem foldItems_eq_map (shape : Shape) (items : List Json.Value) :
    foldItems pool options shape items = items.map (foldValue pool options shape) := by
  induction items with
  | nil => simp only [foldItems, List.map_nil]
  | cons item rest inductionHypothesis =>
    rw [foldItems, inductionHypothesis, List.map_cons]

/-- A list of entries is folded into a map from left to right, after its items. -/
theorem foldValue_list (id : MessageId) (items : List Json.Value) :
    foldValue pool options (.map id) (.array items) =
      .object (membersOfItems pool options id
        (items.map (foldValue pool options (.singular (.message id) false)))) := by
  rw [foldValue, foldItems_eq_map]

theorem foldValue_repeated (type : ValueType) (packed : Bool) (items : List Json.Value) :
    foldValue pool options (.repeated type packed) (.array items) =
      .array (items.map (foldValue pool options (.singular type false))) := by
  rw [foldValue, foldItems_eq_map]

theorem membersOfItems_cons_ne_nil (id : MessageId) (item : Json.Value) (rest : List Json.Value) :
    membersOfItems pool options id (item :: rest) ≠ [] :=
  Members.insertAll_ne_nil (List.cons_ne_nil _ _) _

/-- Only values with messages in them are folded. -/
theorem foldValue_of_notMessage {type : ValueType} (notMessage : type.isMessage = false)
    (explicit : Bool) (value : Json.Value) :
    foldValue pool options (.singular type explicit) value = value := by
  have noShapes : memberShape? pool options (.singular type explicit) = fun _ => none := by
    cases type with
    | message id => cases notMessage
    | scalar scalar => rfl
    | enumeration id => rfl
  have same (members : Members) :
      foldMembers pool options (fun _ => none) members = members := by
    induction members with
    | nil => rw [foldMembers]
    | cons member rest inductionHypothesis => rw [foldMembers, inductionHypothesis]
  cases value with
  | object members => rw [foldValue, noShapes, same]
  | _ => simp only [foldValue]

/-- Whether a single value is marked does not matter. -/
theorem foldValue_explicit (type : ValueType) (explicit : Bool) (value : Json.Value) :
    foldValue pool options (.singular type explicit) value =
      foldValue pool options (.singular type false) value := by
  have sameShapes : memberShape? pool options (.singular type explicit) =
      memberShape? pool options (.singular type false) := by
    cases type <;> rfl
  cases value with
  | object members => rw [foldValue, foldValue, sameShapes]
  | _ => simp only [foldValue]

/-- Members are folded where they are inserted. -/
theorem foldMembers_insert (shapeOf : String → Option Shape) {name : String} {shape : Shape}
    (named : shapeOf name = some shape) (value : Json.Value) (members : Members) :
    foldMembers pool options shapeOf (members.insert name value) =
      Members.insert name (foldValue pool options shape value)
        (foldMembers pool options shapeOf members) := by
  induction members with
  | nil => simp only [Members.insert, foldMembers, named]
  | cons member rest inductionHypothesis =>
    rcases member with ⟨first, held⟩
    by_cases same : first = name
    · simp only [Members.insert, if_pos same, foldMembers, named]
    · simp only [Members.insert, if_neg same, foldMembers, inductionHypothesis]

theorem lookup_foldMembers (shapeOf : String → Option Shape) {name : String} {shape : Shape}
    (named : shapeOf name = some shape) (members : Members) :
    (foldMembers pool options shapeOf members).lookup name =
      (members.lookup name).map (foldValue pool options shape) := by
  induction members with
  | nil =>
    rw [foldMembers]
    rfl
  | cons member rest inductionHypothesis =>
    rcases member with ⟨first, held⟩
    rw [foldMembers, Members.lookup_member, Members.lookup_member]
    by_cases same : name = first
    · rw [if_pos same, if_pos same, ← same, named]
      rfl
    · rw [if_neg same, if_neg same, inductionHypothesis]

end Folds
end SchemaRecords.Payload
