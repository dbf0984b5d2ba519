import SchemaRecords.Proofs.Payload.ListedEntries
import SchemaRecords.Proofs.Payload.SpareLevels

/-!
# Decoding maps and lists side by side

A payload of a message is also one of the message in a variant that lists some of its maps.  The
decoders of both go through its records side by side.  A kept field is given the same on both sides,
or what its own is folded from.  A listed map is given an entry where the list is given an element,
and the members of the list come in the order in which the entries do.  So a document of the variant
is folded to the document with the maps, field by field and level by level.

An entry is no level for a map of simple values, but its message is one for the list: the decoder of
the variant is given one level more.
-/

namespace SchemaRecords.Payload

open SchemaRecords.Json SchemaRecords.Schema
open Outcome (Follows)

section Sides

variable {relocation : Relocation} {pool variant : Pool} {options : Options}
  {message other : Message} {first second firstEntry secondEntry : Decoder} {payload : Bytes}

/-! ## Contributions -/

/-- Whatever one decoder makes of an entry, another makes of the message that a list has in its
place an object which stands for the entry. -/
def EntriesFold (relocation : Relocation) (pool variant : Pool) (options : Options)
    (first second : Decoder) : Prop :=
  ∀ id entry other, pool.message? id = some entry → entry.IsEntry →
    variant.message? (relocation.message id) = some other → ∀ payload,
      Unambiguous pool options (entry, payload) →
        Follows (fun member item => member = memberOfItem pool options id
            (foldValue pool options (.singular (.message id) false) item))
          (decodeEntry pool first entry payload) (second other payload)

/-- A contribution to a field, and one to the field in a variant that it is folded from. -/
inductive Contribution.FoldsTo (pool : Pool) (options : Options) (field other : Field) :
    Contribution → Contribution → Prop
  | value (value : Json.Value) : FoldsTo pool options field other (.value value) (.value value)
  | content (bytes : Bytes) : FoldsTo pool options field other (.content bytes) (.content bytes)
  | elements {type : ValueType} {packed : Bool} (shape : field.shape = .repeated type packed)
      (listed : List Json.Value) :
      FoldsTo pool options field other
        (.elements (listed.map (foldValue pool options (.singular type false)))) (.elements listed)
  | entry {id otherId : MessageId} (shape : field.shape = .map id)
      (kept : other.shape = .map otherId) {type : ValueType}
      (valueShape : ∀ name, memberShape? pool options (.map id) name = some (.singular type false))
      {key : String} {value listed : Json.Value}
      (fold : FoldOf pool options (.singular type false) value listed) :
      FoldsTo pool options field other (.entry key value) (.entry key listed)
  | item {id : MessageId} (shape : field.shape = .map id) {packed : Bool} {type : ValueType}
      (otherShape : other.shape = .repeated type packed) {member : String × Json.Value}
      {item : Json.Value} (same : member = memberOfItem pool options id
        (foldValue pool options (.singular (.message id) false) item)) :
      FoldsTo pool options field other (.entry member.1 member.2) (.elements [item])

/-- The elements of a packed block are the same in a variant. -/
theorem readPacked_listed (listed : pool.Listed relocation variant) {type : ValueType}
    (known : pool.HasType type) (name otherName : String) (content : Bytes) :
    Follows Eq (readPacked pool name type content)
      (readPacked variant otherName (type.relocate relocation) content) := by
  rw [readPacked, readPacked, ValueType.layout_relocate,
    funext (renderPackable?_embeds listed.enumerations known)]
  cases Wire.Value.readAll type.layout content with
  | ok values => exact .ok rfl
  | error fault => exact .error _

section Fields

variable {field otherField : Field} (wellFormed : pool.WellFormed)
  (listed : pool.Listed relocation variant) (clear : Unambiguous pool options (message, payload))
  (there : message ∈ pool.messages) (notEntry : message.isMapEntry = false)
  (member : field ∈ message.fields) {wire : Wire.Value}
  (inside : ∀ content, wire = .delimited content → content ∈ contentsNumbered field.number payload)
include wellFormed listed clear notEntry member inside

/-- A record gives a list of messages elements that its own elements are folded from. -/
theorem Folds.contribution?_repeated (folds : Folds relocation pool variant options first second)
    {type : ValueType} {packed : Bool} (shape : field.shape = .repeated type packed)
    (known : pool.Nameable type) :
    Option.Rel (Follows (Contribution.FoldsTo pool options field (field.relocate relocation)))
      (contribution? pool first firstEntry message field wire)
      (contribution? variant second secondEntry other (field.relocate relocation) wire) := by
  have single : Option.Rel
      (Follows (Contribution.FoldsTo pool options field (field.relocate relocation)))
      ((Payload.readValue? pool first message.fullName field.name type wire).map
        (·.map fun element => .elements [element]))
      ((Payload.readValue? variant second other.fullName field.name (type.relocate relocation)
        wire).map (·.map fun element => .elements [element])) := by
    refine optionRel_map (folds.readValue? wellFormed listed known _ other.fullName _ ?_)
      fun _ _ follows => follows.map ?_
    · intro id next content isMessage found isContent
      exact clear.of_holds
        (.element notEntry member (isMessage ▸ shape) found (inside content isContent))
    · intro value element fold
      exact fold ▸ .elements shape [element]
  have otherShape : (field.relocate relocation).shape =
      .repeated (type.relocate relocation) packed :=
    Field.shape_relocate_of shape
  rw [contribution?.eq_def, contribution?.eq_def, shape, otherShape]
  cases wire with
  | delimited content =>
    dsimp only
    rw [ValueType.isPackable_relocate]
    split
    · rename_i packable
      refine .some ((readPacked_listed listed known.hasType _ _ content).map ?_)
      rintro values _ rfl
      have same : values.map (foldValue pool options (.singular type false)) = values := by
        rw [funext (foldValue_of_notMessage (isMessage_of_isPackable packable) false), List.map_id']
      have elements : Contribution.FoldsTo pool options field (field.relocate relocation) _ _ :=
        .elements shape values
      rwa [same] at elements
    · exact single
  | varint word => exact single
  | fixed64 word => exact single
  | fixed32 word => exact single

section Maps

variable {id : MessageId} {entry : Message} (shape : field.shape = .map id)
  (found : pool.message? id = some entry) (isEntry : entry.IsEntry)
include shape found isEntry

/-- A record gives a map an entry, and the same map in the variant one that it is folded from. -/
theorem Folds.contribution?_kept
    (foldsEntry : Folds relocation pool variant options firstEntry secondEntry)
    {key : Scalar} {type : ValueType} (fields : entry.fields = [.entryKey key, .entryValue type])
    (known : pool.Nameable type) :
    Option.Rel (Follows (Contribution.FoldsTo pool options field (field.relocate relocation)))
      (contribution? pool first firstEntry message field wire)
      (contribution? variant second secondEntry other (field.relocate relocation) wire) := by
  rcases listed.exists_message wellFormed found with ⟨otherEntry, otherFound, entryListed⟩
  have indexed := (wellFormed.messages entry (List.mem_of_getElem? found)).indexed
  have otherShape : (field.relocate relocation).shape = .map (relocation.message id) :=
    Field.shape_relocate_of shape
  have valueShape (name : String) :
      memberShape? pool options (.map id) name = some (.singular type false) := by
    have valueField : entry.fieldByNumber? 2 = some (.entryValue type) :=
      indexed.fieldByNumber?_of_mem (fields ▸ List.mem_cons_of_mem _ List.mem_cons_self)
    rw [memberShape?, found, Option.bind_some, valueField]
    rfl
  rw [contribution?.eq_def, contribution?.eq_def, shape, otherShape]
  cases wire with
  | delimited content =>
    have part := clear.of_holds (.entry notEntry member shape found (inside content rfl))
    refine .some (inField_follows ?_ _)
    simp only [decodeEntryAt, found, otherFound]
    refine (foldsEntry.decodeEntry wellFormed listed part isEntry.1 fields known
      (entryListed.entryFields fields)).map ?_
    rintro ⟨entryKey, value⟩ ⟨_, listedValue⟩ ⟨rfl, fold⟩
    exact .entry shape otherShape valueShape fold
  | varint word => exact .none
  | fixed64 word => exact .none
  | fixed32 word => exact .none

/-- A record gives a map an entry, and the list in its place an item that stands for the entry. -/
theorem EntriesFold.contribution?_listed
    (entriesFold : EntriesFold relocation pool variant options firstEntry second)
    (otherShape : otherField.shape = .repeated (.message (relocation.message id)) false)
    (sameName : otherField.name = field.name) :
    Option.Rel (Follows (Contribution.FoldsTo pool options field otherField))
      (contribution? pool first firstEntry message field wire)
      (contribution? variant second secondEntry other otherField wire) := by
  rcases listed.exists_message wellFormed found with ⟨otherEntry, otherFound, _⟩
  rw [contribution?.eq_def, contribution?.eq_def, shape, otherShape]
  cases wire with
  | delimited content =>
    have part := clear.of_holds (.entry notEntry member shape found (inside content rfl))
    have item (one : String × Json.Value) (another : Json.Value) (same : one = _) :
        Contribution.FoldsTo pool options field otherField (.entry one.1 one.2)
          (.elements [another]) := .item shape otherShape same
    have follows := (inField_follows
      (entriesFold id entry otherEntry found isEntry otherFound content part) field.name).map item
    have readValue : Payload.readValue? variant second other.fullName otherField.name
        (.message (relocation.message id)) (.delimited content) =
          some (inField field.name (second otherEntry content)) := by
      rw [Payload.readValue?, Decoder.follow, otherFound, sameName]
    simp only [ValueType.isPackable, Bool.false_eq_true, if_false, readValue, Option.map_some,
      decodeEntryAt, found, inField_map]
    exact .some follows
  | varint word => exact .none
  | fixed64 word => exact .none
  | fixed32 word => exact .none

end Maps

include there in
/-- What a record gives a field is folded from what it gives the field in a variant. -/
theorem Folds.contribution? (folds : Folds relocation pool variant options first second)
    (foldsEntry : Folds relocation pool variant options firstEntry secondEntry)
    (entriesFold : EntriesFold relocation pool variant options firstEntry second)
    (fieldListed : field.Listed relocation otherField) :
    Option.Rel (Follows (Contribution.FoldsTo pool options field otherField))
      (contribution? pool first firstEntry message field wire)
      (contribution? variant second secondEntry other otherField wire) := by
  cases wellFormed.fieldKind there member with
  | simple shape notMessage known =>
    cases fieldListed.eq_relocate (by rw [Field.isMap, shape])
    rw [contribution?_of_notMessage shape notMessage, ← Option.map_id' (x :=
      Payload.contribution? variant second secondEntry other (field.relocate relocation) wire)]
    refine optionRel_map (contribution?_listed_simple listed shape notMessage known.hasType _ wire)
      fun _ _ follows value isValue => ?_
    rcases Outcome.map_eq_ok_iff.mp isValue with ⟨shown, isShown, rfl⟩
    rcases follows shown isShown with ⟨_, isOther, rfl⟩
    exact ⟨.value shown, isOther, .value shown⟩
  | message shape found nextNotEntry =>
    cases fieldListed.eq_relocate (by rw [Field.isMap, shape])
    rw [contribution?.eq_def, contribution?.eq_def, Field.shape_relocate, shape]
    cases wire with
    | delimited content => exact .some (.ok (.content content))
    | varint word => exact .none
    | fixed64 word => exact .none
    | fixed32 word => exact .none
  | «repeated» shape packable known =>
    cases fieldListed.eq_relocate (by rw [Field.isMap, shape])
    exact folds.contribution?_repeated wellFormed listed clear notEntry member inside shape known
  | map shape found fields legal known =>
    rename_i id entry key type
    rcases (wellFormed.messages message there).entries field member id shape with
      ⟨_, found', isEntry⟩
    cases found.symm.trans found'
    have sameName := fieldListed.name
    rcases fieldListed with rfl | isListed
    · exact foldsEntry.contribution?_kept wellFormed listed clear notEntry member inside shape found
        isEntry fields known
    · rcases Field.Listed.eq_of_listed? isListed with ⟨_, shape', same⟩
      cases shape.symm.trans shape'
      exact entriesFold.contribution?_listed wellFormed listed clear notEntry member inside shape
        found isEntry (congrArg Field.shape same) sameName

end Fields

/-! ## Occurrences -/

/-- An occurrence, and one of the field in a variant with a contribution that its own is folded
from. -/
structure Occurrence.FoldsTo (relocation : Relocation) (pool : Pool) (options : Options)
    (message other : Message) (one another : Occurrence) : Prop where
  member : one.field ∈ message.fields
  otherMember : another.field ∈ other.fields
  listed : one.field.Listed relocation another.field
  fold : one.contribution.FoldsTo pool options one.field another.field another.contribution

/-- A number is that of no field on either side, or of a field that is listed on the other side. -/
theorem fieldByNumber?_listed (indexed : message.Indexed) (otherIndexed : other.Indexed)
    (listed : message.Listed relocation other) (number : Nat) :
    Option.Rel (fun field otherField => field ∈ message.fields ∧ otherField ∈ other.fields ∧
        field.number = number ∧ field.Listed relocation otherField)
      (message.fieldByNumber? number) (other.fieldByNumber? number) := by
  cases found : message.fieldByNumber? number with
  | some field =>
    have member := mem_of_fieldByNumber? found
    have isNumber := indexed.number_of_fieldByNumber? found
    rcases exists_source listed.fields.flip field member with ⟨otherField, otherMember, isListed⟩
    have sameNumber : otherField.number = field.number := Field.Listed.number isListed
    have otherFound := otherIndexed.fieldByNumber?_of_mem otherMember
    rw [sameNumber, isNumber] at otherFound
    rw [otherFound]
    exact .some ⟨member, otherMember, isNumber, isListed⟩
  | none =>
    cases otherFound : other.fieldByNumber? number with
    | none => exact .none
    | some otherField =>
      have otherMember := mem_of_fieldByNumber? otherFound
      rcases exists_source listed.fields otherField otherMember with ⟨field, member, isListed⟩
      have found' := indexed.fieldByNumber?_of_mem member
      rw [← isListed.number, otherIndexed.number_of_fieldByNumber? otherFound, found] at found'
      cases found'

theorem Folds.occurrence? (wellFormed : pool.WellFormed) (variantWellFormed : variant.WellFormed)
    (listed : pool.Listed relocation variant)
    (folds : Folds relocation pool variant options first second)
    (foldsEntry : Folds relocation pool variant options firstEntry secondEntry)
    (entriesFold : EntriesFold relocation pool variant options firstEntry second)
    (clear : Unambiguous pool options (message, payload)) (there : message ∈ pool.messages)
    (notEntry : message.isMapEntry = false) (otherThere : other ∈ variant.messages)
    (isListed : message.Listed relocation other) {record : Wire.Record}
    (inside : record ∈ (Wire.Record.split payload).1) :
    Option.Rel (Follows (Occurrence.FoldsTo relocation pool options message other))
      (occurrence? pool first firstEntry message record)
      (occurrence? variant second secondEntry other record) := by
  cases holds : record.value with
  | none =>
    simp only [Payload.occurrence?, holds]
    exact .none
  | some wire =>
    have aligned := fieldByNumber?_listed (wellFormed.messages message there).indexed
      (variantWellFormed.messages other otherThere).indexed isListed record.number
    cases found : message.fieldByNumber? record.number with
    | none =>
      rw [found] at aligned
      cases otherFound : other.fieldByNumber? record.number with
      | none =>
        simp only [Payload.occurrence?, holds, found, otherFound]
        exact .none
      | some otherField => cases otherFound ▸ aligned
    | some field =>
      rw [found] at aligned
      cases otherFound : other.fieldByNumber? record.number with
      | none => cases otherFound ▸ aligned
      | some otherField =>
        rw [otherFound] at aligned
        cases aligned with
        | some here =>
          rcases here with ⟨member, otherMember, number, fieldListed⟩
          rw [occurrence?_of_field holds found, occurrence?_of_field holds otherFound]
          have own : ∀ content, wire = .delimited content →
              content ∈ contentsNumbered field.number payload := fun content isContent =>
            number ▸ mem_contentsNumbered inside (isContent ▸ holds)
          exact optionRel_map (folds.contribution? wellFormed listed clear there notEntry member own
            foldsEntry entriesFold fieldListed) fun _ _ follows =>
              follows.map fun _ _ fold => ⟨member, otherMember, fieldListed, fold⟩

theorem contributionsTo_listed (indexed : message.Indexed) (otherIndexed : other.Indexed)
    {field otherField : Field} (member : field ∈ message.fields)
    (otherMember : otherField ∈ other.fields) (fieldListed : field.Listed relocation otherField)
    {occurrences otherOccurrences : List Occurrence}
    (each : List.Forall₂ (Occurrence.FoldsTo relocation pool options message other) occurrences
      otherOccurrences) :
    List.Forall₂ (Contribution.FoldsTo pool options field otherField)
      (contributionsTo field occurrences) (contributionsTo otherField otherOccurrences) := by
  have kept := forall₂_takeWhile (p := fun occurrence => !occurrence.displaces field)
    (q := fun occurrence => !occurrence.displaces otherField)
    (fun one another fold => by
      simp only [Occurrence.displaces, fold.listed.oneof, fold.listed.number, fieldListed.oneof,
        fieldListed.number]) (List.rel_reverse each)
  have own := forall₂_filter
    (p := fun occurrence => decide (occurrence.field.number = field.number))
    (q := fun occurrence => decide (occurrence.field.number = otherField.number))
    (fun one another fold => by rw [fold.listed.number, fieldListed.number])
    (List.rel_reverse kept)
  unfold contributionsTo
  rw [List.forall₂_map_left_iff, List.forall₂_map_right_iff]
  apply own.imp
  intro one another both
  have number : one.field.number = field.number := of_decide_eq_true both.2
  have same := indexed.eq_of_number both.1.member member number
  have otherSame := otherIndexed.eq_of_number both.1.otherMember otherMember
    (by rw [both.1.listed.number, fieldListed.number, number])
  exact same ▸ otherSame ▸ both.1.fold

/-! ## Values of fields -/

section Values

/-- What a field shows, and what the field in a variant shows that its own is folded from. -/
def ShownFold (pool : Pool) (options : Options) (field : Field)
    (shown otherShown : Option Json.Value) : Prop :=
  shown = otherShown.map (foldValue pool options field.shape)

variable {field otherField : Field} {contributions others : List Contribution}
  (each : List.Forall₂ (Contribution.FoldsTo pool options field otherField) contributions others)
include each

theorem valuesOf_foldsTo :
    valuesOf contributions = valuesOf others := by
  induction each with
  | nil => rfl
  | cons here _ inductionHypothesis =>
    simp only [valuesOf] at inductionHypothesis ⊢
    cases here <;> simp only [List.filterMap_cons, inductionHypothesis]

theorem contentsOf_foldsTo :
    contentsOf contributions = contentsOf others := by
  induction each with
  | nil => rfl
  | cons here _ inductionHypothesis =>
    simp only [contentsOf] at inductionHypothesis ⊢
    cases here <;> simp only [List.filterMap_cons, inductionHypothesis]

theorem elementsOf_foldsTo {type : ValueType} {packed : Bool}
    (shape : field.shape = .repeated type packed) :
    elementsOf contributions =
      (elementsOf others).map (foldValue pool options (.singular type false)) := by
  induction each with
  | nil => rfl
  | cons here _ inductionHypothesis =>
    simp only [elementsOf] at inductionHypothesis ⊢
    cases here with
    | elements shape' listed =>
      cases shape.symm.trans shape'
      simp only [List.flatMap_cons, List.map_append, inductionHypothesis]
    | item shape' => cases shape.symm.trans shape'
    | _ => simpa only [List.flatMap_cons, List.nil_append] using inductionHypothesis

/-- The entries of a map are folded where they stand. -/
theorem entriesOf_kept {id otherId : MessageId} (shape : field.shape = .map id)
    (kept : otherField.shape = .map otherId) :
    entriesOf contributions =
      foldMembers pool options (memberShape? pool options (.map id)) (entriesOf others) := by
  have general (before : Json.Members) :
      contributions.foldl addEntry
          (foldMembers pool options (memberShape? pool options (.map id)) before) =
        foldMembers pool options (memberShape? pool options (.map id))
          (others.foldl addEntry before) := by
    induction each generalizing before with
    | nil => rfl
    | cons here _ inductionHypothesis =>
      rw [List.foldl_cons, List.foldl_cons]
      cases here with
      | entry shape' _ valueShape fold =>
        cases shape.symm.trans shape'
        simp only [addEntry]
        rw [fold, ← foldMembers_insert _ (valueShape _)]
        exact inductionHypothesis _
      | item _ otherShape => cases kept.symm.trans otherShape
      | _ => exact inductionHypothesis before
  exact general []

/-- The entries of a map are those that the elements of the list stand for. -/
theorem entriesOf_listed {id : MessageId} {type : ValueType} {packed : Bool}
    (shape : field.shape = .map id) (otherShape : otherField.shape = .repeated type packed) :
    entriesOf contributions =
      membersOfItems pool options id
        ((elementsOf others).map (foldValue pool options (.singular (.message id) false))) := by
  rw [membersOfItems, List.map_map]
  have general (before : Json.Members) :
      contributions.foldl addEntry before =
        Members.insertAll before ((elementsOf others).map (memberOfItem pool options id ∘
          foldValue pool options (.singular (.message id) false))) := by
    induction each generalizing before with
    | nil => rfl
    | cons here _ inductionHypothesis =>
      rw [List.foldl_cons, inductionHypothesis]
      cases here with
      | item shape' _ same =>
        cases shape.symm.trans shape'
        rw [same]
        rfl
      | entry _ kept => cases otherShape.symm.trans kept
      | elements shape' => cases shape.symm.trans shape'
      | _ => rfl
  exact general []

theorem fieldValue_listed_simple (listed : pool.Listed relocation variant) {type : ValueType}
    {explicit : Bool} (shape : field.shape = .singular type explicit)
    (notMessage : type.isMessage = false) (known : pool.HasType type)
    (kept : otherField = field.relocate relocation) :
    Follows (ShownFold pool options field) (fieldValue pool options first field contributions)
      (fieldValue variant options second otherField others) := by
  subst kept
  have otherShape : (field.relocate relocation).shape =
      .singular (type.relocate relocation) explicit :=
    Field.shape_relocate_of shape
  rw [fieldValue_of_notMessage shape notMessage, fieldValue_of_notMessage otherShape
    ((type.isMessage_relocate).trans notMessage), valuesOf_foldsTo each,
    Field.hasPresence_relocate, renderDefault_embeds listed.enumerations known]
  simp only [isDefault_embeds listed.enumerations known]
  refine (Follows.refl _).imp ?_
  rintro shown _ rfl
  rw [ShownFold, shape, funext (foldValue_of_notMessage notMessage explicit), Option.map_id']

theorem Folds.fieldValue_message (wellFormed : pool.WellFormed)
    (listed : pool.Listed relocation variant)
    (folds : Folds relocation pool variant options first second)
    (clear : Unambiguous pool options (message, payload)) (notEntry : message.isMapEntry = false)
    (member : field ∈ message.fields) {id : MessageId} {explicit : Bool} {next : Message}
    (shape : field.shape = .singular (.message id) explicit) (found : pool.message? id = some next)
    (nextNotEntry : next.isMapEntry = false)
    (contents : contentsOf contributions = currentContents message field payload)
    (kept : otherField = field.relocate relocation) :
    Follows (ShownFold pool options field)
      (Payload.fieldValue pool options first field contributions)
      (Payload.fieldValue variant options second otherField others) := by
  subst kept
  have otherShape : (field.relocate relocation).shape =
      .singular (.message (relocation.message id)) explicit :=
    Field.shape_relocate_of shape
  rw [fieldValue_of_message shape, fieldValue_of_message otherShape, ← contentsOf_foldsTo each,
    contents]
  cases given : currentContents message field payload with
  | nil => exact .ok rfl
  | cons content rest =>
    have some : currentContents message field payload ≠ [] := by
      rw [given]
      exact List.cons_ne_nil _ _
    have part := clear.of_holds (.joined notEntry member shape found some)
    rw [given] at part
    refine (inField_follows (folds.follow wellFormed listed found nextNotEntry part) _).map
      fun value another fold => ?_
    rw [ShownFold, shape, Option.map_some, foldValue_explicit]
    exact congrArg Option.some fold

theorem fieldValue_listed_repeated {type otherType : ValueType} {packed otherPacked : Bool}
    (shape : field.shape = .repeated type packed)
    (otherShape : otherField.shape = .repeated otherType otherPacked) :
    Follows (ShownFold pool options field) (fieldValue pool options first field contributions)
      (fieldValue variant options second otherField others) := by
  rw [fieldValue, fieldValue, shape, otherShape]
  dsimp only
  rw [elementsOf_foldsTo each shape]
  have folded (items : List Json.Value) :
      ShownFold pool options field
        (some (.array (items.map (foldValue pool options (.singular type false)))))
        (some (.array items)) := by
    rw [ShownFold, shape, Option.map_some, foldValue_repeated]
  cases elementsOf others with
  | nil =>
    refine .ok ?_
    split
    · exact folded []
    · rfl
  | cons item rest => exact .ok (folded (item :: rest))

theorem fieldValue_kept {id otherId : MessageId} (shape : field.shape = .map id)
    (kept : otherField.shape = .map otherId) :
    Follows (ShownFold pool options field) (fieldValue pool options first field contributions)
      (fieldValue variant options second otherField others) := by
  rw [fieldValue, fieldValue, shape, kept]
  dsimp only
  rw [entriesOf_kept each shape kept]
  have folded (entries : Json.Members) :
      ShownFold pool options field
        (some (.object (foldMembers pool options (memberShape? pool options (.map id)) entries)))
        (some (.object entries)) := by
    rw [ShownFold, shape, Option.map_some, foldValue]
  cases entriesOf others with
  | nil =>
    rw [foldMembers]
    refine .ok ?_
    split
    · simpa only [foldMembers] using folded []
    · rfl
  | cons entry rest =>
    have isShown := folded (entry :: rest)
    rw [foldMembers] at isShown ⊢
    exact .ok isShown

theorem fieldValue_listed {id : MessageId} {type : ValueType} {packed : Bool}
    (shape : field.shape = .map id) (otherShape : otherField.shape = .repeated type packed) :
    Follows (ShownFold pool options field) (fieldValue pool options first field contributions)
      (fieldValue variant options second otherField others) := by
  rw [fieldValue, fieldValue, shape, otherShape]
  dsimp only
  rw [entriesOf_listed each shape otherShape]
  have folded (items : List Json.Value) :
      ShownFold pool options field
        (some (.object (membersOfItems pool options id
          (items.map (foldValue pool options (.singular (.message id) false))))))
        (some (.array items)) := by
    rw [ShownFold, shape, Option.map_some, foldValue_list]
  cases elementsOf others with
  | nil =>
    refine .ok ?_
    split
    · exact folded []
    · rfl
  | cons item rest =>
    have isShown := folded (item :: rest)
    rw [List.map_cons] at isShown ⊢
    split
    · rename_i nothing
      exact absurd nothing (membersOfItems_cons_ne_nil id _ _)
    · exact .ok isShown

/-- What a field shows is folded from what it shows in a variant. -/
theorem Folds.fieldValue (wellFormed : pool.WellFormed) (listed : pool.Listed relocation variant)
    (folds : Folds relocation pool variant options first second)
    (clear : Unambiguous pool options (message, payload)) (there : message ∈ pool.messages)
    (notEntry : message.isMapEntry = false) (member : field ∈ message.fields)
    (fieldListed : field.Listed relocation otherField)
    (contents : ∀ id explicit, field.shape = .singular (.message id) explicit →
      contentsOf contributions = currentContents message field payload) :
    Follows (ShownFold pool options field)
      (Payload.fieldValue pool options first field contributions)
      (Payload.fieldValue variant options second otherField others) := by
  cases wellFormed.fieldKind there member with
  | simple shape notMessage known =>
    exact fieldValue_listed_simple each listed shape notMessage known.hasType
      (fieldListed.eq_relocate (by rw [Field.isMap, shape]))
  | message shape found nextNotEntry =>
    exact folds.fieldValue_message each wellFormed listed clear notEntry member shape found
      nextNotEntry (contents _ _ shape) (fieldListed.eq_relocate (by rw [Field.isMap, shape]))
  | «repeated» shape packable known =>
    cases fieldListed.eq_relocate (by rw [Field.isMap, shape])
    exact fieldValue_listed_repeated each shape (Field.shape_relocate_of shape)
  | map shape found fields legal known =>
    rcases fieldListed with rfl | isListed
    · exact fieldValue_kept each shape (Field.shape_relocate_of shape)
    · rcases Field.Listed.eq_of_listed? isListed with ⟨_, _, same⟩
      exact fieldValue_listed each shape (congrArg Field.shape same)

end Values

/-! ## Messages -/

theorem assemble_listed {shapeOf : String → Option Shape} {fields otherFields : List Field}
    {occurrences otherOccurrences : List Occurrence}
    (named : ∀ field ∈ fields, shapeOf (options.key field) = some field.shape)
    (each : List.Forall₂ (fun field otherField => options.key otherField = options.key field ∧
        Follows (ShownFold pool options field)
          (fieldValue pool options first field (contributionsTo field occurrences))
          (fieldValue variant options second otherField
            (contributionsTo otherField otherOccurrences))) fields otherFields)
    (members : Members) :
    Follows (fun one another => one = foldMembers pool options shapeOf another)
      (assemble pool options first occurrences (foldMembers pool options shapeOf members) fields)
      (assemble variant options second otherOccurrences members otherFields) := by
  induction each generalizing members with
  | nil => exact .ok rfl
  | @cons field otherField _ _ here _ inductionHypothesis =>
    rcases here with ⟨sameKey, follows⟩
    have later := inductionHypothesis fun field there => named field (List.mem_cons_of_mem _ there)
    intro result assembled
    simp only [assemble] at assembled
    cases value : fieldValue pool options first field (contributionsTo field occurrences) with
    | error refusal =>
      rw [value] at assembled
      cases assembled
    | ok shown =>
      rcases follows shown value with ⟨otherShown, otherValue, isFolded⟩
      rw [value] at assembled
      simp only [assemble, otherValue]
      cases otherShown with
      | none =>
        cases isFolded
        exact later members result assembled
      | some another =>
        cases isFolded
        rw [sameKey]
        apply later
        rw [foldMembers_insert _ (named field List.mem_cons_self)]
        exact assembled

theorem Folds.decodeLevel (wellFormed : pool.WellFormed) (variantWellFormed : variant.WellFormed)
    (listed : pool.Listed relocation variant)
    (folds : Folds relocation pool variant options first second)
    (foldsEntry : Folds relocation pool variant options firstEntry secondEntry)
    (entriesFold : EntriesFold relocation pool variant options firstEntry second) :
    Folds relocation pool variant options (decodeLevel pool options first firstEntry)
      (decodeLevel variant options second secondEntry) := by
  intro id message other found notEntry otherFound payload clear
  have there := List.mem_of_getElem? found
  have otherThere := List.mem_of_getElem? otherFound
  have indexed := (wellFormed.messages message there).indexed
  have otherIndexed := (variantWellFormed.messages other otherThere).indexed
  have isListed : message.Listed relocation other := by
    rcases listed.exists_message wellFormed found with ⟨other', otherFound', isListed⟩
    cases otherFound.symm.trans otherFound'
    exact isListed
  have sides := readPayload_follows (fun record inside => folds.occurrence? wellFormed
    variantWellFormed listed foldsEntry entriesFold clear there notEntry otherThere isListed inside)
    message.fullName other.fullName
  intro document decoded
  rcases Outcome.bind_eq_ok_iff.mp decoded with ⟨occurrences, read, rest⟩
  rcases Outcome.bind_eq_ok_iff.mp rest with ⟨members, assembled, same⟩
  cases same
  rcases sides occurrences read with ⟨otherOccurrences, otherRead, each⟩
  have fields : List.Forall₂ _ message.fields other.fields := forall₂_imp_of_mem
    (fun field member otherField otherMember fieldListed => And.intro
      (show options.key otherField = options.key field by
        rw [Options.key, Options.key, Field.Listed.name fieldListed,
          Field.Listed.jsonName fieldListed])
      (folds.fieldValue
        (contributionsTo_listed indexed otherIndexed member otherMember fieldListed each)
        wellFormed listed clear there notEntry member fieldListed
        fun _ _ shape => contentsOf_contributionsTo indexed member shape read))
    isListed.fields
  have named : ∀ field ∈ message.fields,
      memberShape? pool options (.singular (.message id) false) (options.key field) =
        some field.shape := by
    intro field member
    rw [memberShape?, found, Option.bind_some,
      find?_key indexed member (clear.own message .refl field member)]
    rfl
  rcases assemble_listed named fields [] members assembled with ⟨otherMembers, otherAssembled, rfl⟩
  refine ⟨.object otherMembers, Outcome.bind_eq_ok_iff.mpr ⟨otherOccurrences, otherRead,
    Outcome.bind_eq_ok_iff.mpr ⟨otherMembers, otherAssembled, rfl⟩⟩, ?_⟩
  rw [FoldOf, foldValue]

/-- A message that stands for an entry costs a level of its own. -/
theorem Folds.entriesFold (wellFormed : pool.WellFormed) (variantWellFormed : variant.WellFormed)
    (listed : pool.Listed relocation variant)
    (folds : Folds relocation pool variant options first second)
    (deep : first.Within (decodeWithin pool options nestingLimit)) :
    EntriesFold relocation pool variant options first
      (Payload.decodeLevel variant options second secondEntry) := by
  intro id entry other found isEntry otherFound payload clear
  rcases isEntry with ⟨isMapEntry, key, type, _, fields⟩
  have facts := wellFormed.messages entry (List.mem_of_getElem? found)
  have known : pool.Nameable type := facts.nameable (.entryValue type)
    (fields ▸ List.mem_cons_of_mem _ List.mem_cons_self) rfl
  rcases listed.exists_message wellFormed found with ⟨_, otherFound', isListed⟩
  cases otherFound.symm.trans otherFound'
  exact folds.decodeEntry_listed wellFormed listed deep clear isMapEntry found fields known
    (variantWellFormed.messages other (List.mem_of_getElem? otherFound)).indexed
    (isListed.entryFields fields)

end Sides

section Levels

variable {relocation : Relocation} {pool variant : Pool}

/-- By induction on the levels, of which the variant has one more. -/
theorem folds_decodeWithin (options : Options) (wellFormed : pool.WellFormed)
    (variantWellFormed : variant.WellFormed) (listed : pool.Listed relocation variant)
    (levels : Nat) (within : levels ≤ nestingLimit) :
    Folds relocation pool variant options (decodeWithin pool options levels)
      (decodeWithin variant options (levels + 1)) := by
  induction levels using decodeWithin.induct with
  | case1 => exact .of_refuse _
  | case2 =>
    have nothing : Folds relocation pool variant options refuse refuse := .of_refuse _
    exact .decodeLevel wellFormed variantWellFormed listed (.of_refuse _) nothing
      (nothing.entriesFold wellFormed variantWellFormed listed (.of_refuse _))
  | case3 levels below entriesBelow =>
    have entries := entriesBelow (by omega)
    have deep : (decodeWithin pool options levels).Within
        (decodeWithin pool options nestingLimit) :=
      within_of_le pool options (by omega)
    refine .decodeLevel wellFormed variantWellFormed listed (below (by omega)) entries ?_
    rw [decodeWithin_succ]
    exact entries.entriesFold wellFormed variantWellFormed listed deep

/-- A payload that both schemas take gives a document of the variant that is folded to the other. -/
theorem foldOf_of_decodeWithin {options : Options} (wellFormed : pool.WellFormed)
    (variantWellFormed : variant.WellFormed) (listed : pool.Listed relocation variant)
    {id : MessageId} {message other : Message} (found : pool.message? id = some message)
    (notEntry : message.isMapEntry = false)
    (otherFound : variant.message? (relocation.message id) = some other) {payload : Bytes}
    (clear : Unambiguous pool options (message, payload)) {document listedDocument : Json.Value}
    (decoded : decodeWithin pool options nestingLimit message payload = .ok document)
    (otherDecoded : decodeWithin variant options nestingLimit other payload = .ok listedDocument) :
    FoldOf pool options (.singular (.message id) false) document listedDocument := by
  have folds := folds_decodeWithin options wellFormed variantWellFormed listed nestingLimit
    (Nat.le_refl _)
  rcases folds id message other found notEntry otherFound payload clear document decoded with
    ⟨deeper, isDeeper, fold⟩
  -- The document with one level more is the one that the variant shows within the limit.
  rcases within_of_le variant options (Nat.le_succ nestingLimit) other payload listedDocument
    otherDecoded with ⟨_, isSame, rfl⟩
  cases isDeeper.symm.trans isSame
  exact fold

end Levels
end SchemaRecords.Payload
