/-!
# Kinds of wire values

The lowest three bits of a tag say how the value behind it is laid out, without any
knowledge of a schema.  Four of the eight codes announce a value, two mark the start
and the end of a group, and two are not in use.
-/

namespace SchemaRecords.Wire

/-- How a single value is laid out. -/
inductive Layout where
  | varint
  | fixed64
  | delimited
  | fixed32
  deriving DecidableEq, Repr

/-- What stands behind a tag. -/
inductive Kind where
  | value (layout : Layout)
  | startGroup
  | endGroup
  deriving DecidableEq, Repr

namespace Kind

/-- The code of a kind in a tag. -/
def code : Kind → Nat
  | .value .varint => 0
  | .value .fixed64 => 1
  | .value .delimited => 2
  | .startGroup => 3
  | .endGroup => 4
  | .value .fixed32 => 5

/-- The kind that a code stands for. -/
def ofCode? : Nat → Option Kind
  | 0 => some (.value .varint)
  | 1 => some (.value .fixed64)
  | 2 => some (.value .delimited)
  | 3 => some .startGroup
  | 4 => some .endGroup
  | 5 => some (.value .fixed32)
  | _ => none

theorem ofCode?_code (kind : Kind) : ofCode? kind.code = some kind := by
  rcases kind with (_ | _ | _ | _) | _ | _ <;> rfl

theorem code_lt (kind : Kind) : kind.code < 8 := by
  rcases kind with (_ | _ | _ | _) | _ | _ <;> decide

end Kind
end SchemaRecords.Wire
