import SchemaRecords.Schema.Declaration.Reader
import SchemaRecords.Schema.Linking

/-!
# Registration of units

A unit is registered under the name by which others import it.  Either all of its
descriptors are added to the pool or the pool stays as it is; a name is free as long
as no registration under it has succeeded.
-/

namespace SchemaRecords.Schema

/-- Why a unit cannot be registered. -/
inductive CompileCause where
  | alreadyRegistered
  | unreadable (fault : SyntaxFault)
  | unlinkable (cause : LinkCause Nat)
  deriving DecidableEq, Repr

/-- A cause and the unit to which it applies.  The places in it are lines. -/
structure CompileError where
  unitName : String
  cause : CompileCause
  deriving DecidableEq, Repr

/-- The explanation of a cause, with places as lines. -/
def LinkCause.message : LinkCause Nat → String
  | .unresolvedImport path => s!"import \"{path}\" has not been added to this context"
  | .emptyEnumeration fullName => s!"enum {fullName} must declare at least one value"
  | .duplicateSymbol fullName => s!"\"{fullName}\" is already defined"
  | .invalidNumber scope field number line =>
    s!"field \"{field}\" of {scope} has invalid number {number} (line {line})"
  | .reservedNumber scope field number line =>
    s!"field \"{field}\" of {scope} uses number {number} reserved for the protobuf implementation (line {line})"
  | .sharedNumber scope number first second =>
    s!"field number {number} of {scope} is used by both \"{first}\" and \"{second}\""
  | .sharedName scope field => s!"field \"{field}\" of {scope} is declared twice"
  | .unresolvedType field typeName => s!"field \"{field}\" refers to unknown type \"{typeName}\""

/-- The explanation of an error. -/
def CompileError.message (error : CompileError) : String :=
  match error.cause with
  | .alreadyRegistered => s!"unit \"{error.unitName}\" has already been added to this context"
  | .unreadable fault =>
    s!"{error.unitName}:{fault.position.line}:{fault.position.column}: " ++ fault.cause.message
  | .unlinkable cause => error.unitName ++ ": " ++ cause.message

/-- Register a text under a name. -/
def Pool.addUnit (pool : Pool) (name text : String) : Except CompileError Pool :=
  if (pool.unit? name).isSome then .error ⟨name, .alreadyRegistered⟩
  else
    match SchemaText.read text with
    | .error fault => .error ⟨name, .unreadable fault⟩
    | .ok schema =>
      match link pool name schema.file with
      | .error cause => .error ⟨name, .unlinkable (cause.map schema.line)⟩
      | .ok linked => .ok (pool.commit linked)

namespace Pool

/-- The pool behind an attempt to register a text under a name. -/
def register (pool : Pool) (name text : String) : Pool :=
  match pool.addUnit name text with
  | .ok grown => grown
  | .error _ => pool

/-- The pool behind some attempts, each a name and a text, from the empty pool on. -/
def registerAll (attempts : List (String × String)) : Pool :=
  attempts.foldl (fun pool attempt => pool.register attempt.1 attempt.2) .empty

end Pool
end SchemaRecords.Schema
