/-!
# Faults of the wire format

Why the bytes of a payload cannot be taken apart.  A fault knows nothing of the
message that the payload belongs to; whoever reads a payload adds that.
-/

namespace SchemaRecords.Wire

/-- Groups may be nested this deep. -/
def groupLimit : Nat := 100

/-- Why the bytes of a payload cannot be taken apart. -/
inductive Fault where
  | endOfInput
  | overlongVarint
  | zeroNumber (tag : Nat)
  | unknownKind (number code : Nat)
  | lengthOutOfBounds (length remaining : Nat)
  | unmatchedEnd (number : Nat)
  | groupTooDeep
  deriving DecidableEq, Repr

/-- The explanation of a fault. -/
def Fault.message : Fault → String
  | .endOfInput => "Unexpected EOF"
  | .overlongVarint => "Incorrect varint"
  | .zeroNumber tag => s!"invalid tag {tag}"
  | .unknownKind number code => s!"invalid wire type {code} for field {number}"
  | .lengthOutOfBounds length remaining =>
    s!"length {length} exceeds the {remaining} remaining bytes"
  | .unmatchedEnd number => s!"end-group tag for field {number} without a matching start"
  | .groupTooDeep => s!"groups nested deeper than {groupLimit} levels"

end SchemaRecords.Wire
