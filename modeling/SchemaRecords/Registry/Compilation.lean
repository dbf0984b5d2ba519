import SchemaRecords.Registry.Source

/-!
# Compilation of a schema with its references

A schema is registered after everything that it refers to, each unit under the name of the
reference that led to it and the schema itself last, under a name of its own.  References
are followed depth first, and those that name a registered unit are passed over.

A reference that names a unit which still waits for its own references closes a cycle.  No
other record is kept of what was seen: a source whose references lead to ever new names is
followed without end.
-/

namespace SchemaRecords.Registry

open SchemaRecords.Schema

/-- The name under which the schema that was asked for is registered. -/
def rootUnit : String := "<root>"

/-- A unit that waits until all of its references are registered, and how many of them it
has met. -/
structure WaitingUnit where
  name : String
  schema : RegisteredSchema
  met : Nat
  deriving DecidableEq, Repr

namespace WaitingUnit

/-- A unit that has met none of its references. -/
def start (name : String) (schema : RegisteredSchema) : WaitingUnit := ⟨name, schema, 0⟩

/-- The reference that is met next. -/
def next? (unit : WaitingUnit) : Option Reference := unit.schema.references[unit.met]?

/-- The unit after it has met one more reference. -/
def advance (unit : WaitingUnit) : WaitingUnit := { unit with met := unit.met + 1 }

@[simp] theorem name_advance (unit : WaitingUnit) : unit.advance.name = unit.name := rfl

end WaitingUnit

/-- A compilation under way: the units that wait, each for the one in front of it, the pool
of those that are registered, and the requests that were made. -/
structure Compilation where
  waiting : List WaitingUnit
  pool : Pool
  requests : List Request
  deriving DecidableEq, Repr

/-- What comes of one turn: the compilation goes on, or it has ended. -/
inductive Turn where
  | goOn (compilation : Compilation)
  | stop (fetch : Fetch Pool)

namespace Compilation

/-- A compilation that has one unit to register. -/
def start (schema : RegisteredSchema) (requests : List Request) : Compilation :=
  ⟨[.start rootUnit schema], .empty, requests⟩

/-- Meet a reference: fetch its schema, unless a unit of this name is there. -/
def meet (source : Source) (compilation : Compilation) (reference : Reference) : Turn :=
  if (compilation.pool.unit? reference.name).isSome then .goOn compilation
  else if reference.name ∈ compilation.waiting.map (·.name) then
    .stop ⟨compilation.requests, .error (.referenceCycle reference.name)⟩
  else
    let requests := compilation.requests ++ [reference.request]
    match source.fetch reference.request with
    | .error error => .stop ⟨requests, .error error⟩
    | .ok schema =>
      .goOn ⟨.start reference.name schema :: compilation.waiting, compilation.pool, requests⟩

/-- One turn: the first unit meets its next reference, or is registered if there is none. -/
def turn (source : Source) (compilation : Compilation) : Turn :=
  match compilation.waiting with
  | [] => .stop ⟨compilation.requests, .ok compilation.pool⟩
  | unit :: below =>
    match unit.next? with
    | some reference => meet source { compilation with waiting := unit.advance :: below } reference
    | none =>
      match compilation.pool.addUnit unit.name unit.schema.text with
      | .ok pool => .goOn ⟨below, pool, compilation.requests⟩
      | .error error => .stop ⟨compilation.requests, .error (.compile unit.name error)⟩

/-- Take turns until the compilation ends; nothing if it never does. -/
def run (source : Source) (compilation : Compilation) : Option (Fetch Pool) :=
  match compilation.turn source with
  | .goOn next => by
    -- The recursive call, by a tactic: a plain one would keep its place in the file in the term.
    apply run
    · exact source
    · exact next
  | .stop fetch => some fetch
partial_fixpoint

end Compilation

/-- The pool of a schema and all that it refers to; nothing if there is no end to that. -/
def compile (source : Source) (id : UInt32) : Option (Fetch Pool) :=
  match source.fetch (.byId id) with
  | .error error => some ⟨[.byId id], .error error⟩
  | .ok schema => (Compilation.start schema [.byId id]).run source

end SchemaRecords.Registry
