import SchemaRecords.Proofs.Payload.OwnRecords

/-!
# Records that belong to a field

A record belongs to the field of its number, if its value is laid out in a way that the field
reads: as a value of its type or, if values of the type may share a block, as a block of repeated
values.  This takes nothing but the schema to decide.  All other records, and all groups, are
foreign to a message, and a decoder makes nothing of exactly these.
-/

namespace SchemaRecords

namespace Schema

/-- Whether values of some layout are read for a shape. -/
def Shape.fits : Shape → Wire.Layout → Bool
  | .repeated type _, layout => layout = type.layout || (type.isPackable && layout = .delimited)
  | shape, layout => layout = shape.type.layout

/-- The field that a record belongs to. -/
def Message.owner? (message : Message) (record : Wire.Record) : Option Field :=
  record.value.bind fun value =>
    (message.fieldByNumber? record.number).filter fun field => field.shape.fits value.layout

/-- Whether a record belongs to no field of a message: it is a group, its number is not declared, or
the declared field does not read values of its layout. -/
def Message.Foreign (message : Message) (record : Wire.Record) : Prop :=
  ∀ value field, record.value = some value → message.fieldByNumber? record.number = some field →
    field.shape.fits value.layout = false

theorem Message.owner?_eq_none_iff {message : Message} {record : Wire.Record} :
    message.owner? record = none ↔ message.Foreign record := by
  rw [owner?, Option.bind_eq_none_iff]
  constructor
  · intro none value field isValue found
    have refused := Option.filter_eq_none_iff.mp (none value isValue) field found
    exact Bool.eq_false_of_not_eq_true refused
  · intro foreign value isValue
    apply Option.filter_eq_none_iff.mpr
    intro field found
    rw [foreign value field isValue found]
    exact Bool.false_ne_true

theorem Message.owner?_eq_some_iff {message : Message} {record : Wire.Record} {field : Field} :
    message.owner? record = some field ↔ ∃ value, record.value = some value ∧
      message.fieldByNumber? record.number = some field ∧
      field.shape.fits value.layout = true := by
  rw [owner?, Option.bind_eq_some_iff]
  apply exists_congr
  intro value
  rw [Option.filter_eq_some_iff]

end Schema

namespace Payload

open SchemaRecords.Schema

variable {pool : Pool} {decoder entryDecoder : Decoder} {message : Message}

/-- Exactly the values that are laid out as a type says are read for it. -/
theorem isSome_readValue? (name field : String) (type : ValueType) (value : Wire.Value) :
    (readValue? pool decoder name field type value).isSome =
      decide (value.layout = type.layout) := by
  cases type with
  | message id => cases value <;> rfl
  | enumeration id => cases value <;> rfl
  | scalar scalar =>
    cases scalar with
    | string =>
      cases value with
      | delimited content =>
        rw [readValue?]
        split <;> rfl
      | varint word => rfl
      | fixed64 word => rfl
      | fixed32 word => rfl
    | _ => cases value <;> rfl

/-- Exactly the values of a fitting layout give a field something. -/
theorem isSome_contribution? (field : Field) (value : Wire.Value) :
    (contribution? pool decoder entryDecoder message field value).isSome =
      field.shape.fits value.layout := by
  rw [contribution?.eq_def]
  cases field.shape with
  | map entry => cases value <;> rfl
  | singular type explicit =>
    cases type with
    | message id => cases value <;> rfl
    | scalar scalar =>
      dsimp only
      rw [Option.isSome_map, isSome_readValue?]
      rfl
    | enumeration id =>
      dsimp only
      rw [Option.isSome_map, isSome_readValue?]
      rfl
  | «repeated» type packed =>
    have single : ((readValue? pool decoder message.fullName field.name type value).map
        (·.map fun element => Contribution.elements [element])).isSome =
          decide (value.layout = type.layout) := by
      rw [Option.isSome_map, isSome_readValue?]
    -- Blocks are read besides values of the type only where both are of different layouts.
    have apart (layout : Wire.Layout) (different : layout ≠ .delimited) :
        (Shape.repeated type packed).fits layout = decide (layout = type.layout) := by
      rw [Shape.fits, decide_eq_false different, Bool.and_false, Bool.or_false]
    cases value with
    | delimited content =>
      cases packable : type.isPackable with
      | true => simp only [Shape.fits, packable, Wire.Value.layout, if_true, Option.isSome_some,
          decide_true, Bool.and_self, Bool.or_true]
      | false =>
        simp only [Shape.fits, packable, Bool.false_eq_true, if_false, Bool.false_and, Bool.or_false]
        exact single
    | varint word => exact single.trans (apart .varint (by decide)).symm
    | fixed64 word => exact single.trans (apart .fixed64 (by decide)).symm
    | fixed32 word => exact single.trans (apart .fixed32 (by decide)).symm

/-- Exactly the records that belong to a field are understood. -/
theorem isSome_occurrence? (record : Wire.Record) :
    (occurrence? pool decoder entryDecoder message record).isSome =
      (message.owner? record).isSome := by
  rw [Message.owner?]
  cases isValue : record.value with
  | none =>
    simp only [occurrence?, isValue]
    rfl
  | some value =>
    cases found : message.fieldByNumber? record.number with
    | none =>
      simp only [occurrence?, isValue, found]
      rfl
    | some field =>
      rw [occurrence?_of_field isValue found, Option.isSome_map, isSome_contribution?,
        Option.bind_some, Option.filter_some]
      cases field.shape.fits value.layout <;> rfl

end Payload
end SchemaRecords
