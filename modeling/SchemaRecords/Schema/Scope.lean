import SchemaRecords.Schema.Pool

/-!
# Scopes

A type name is looked up from the innermost scope outwards, and the first scope in
which it names something that can be seen decides.  What can be seen is everything
the unit itself declares, everything its imports declare, and everything that those
pass on to their importers.  A name of a unit that cannot be seen does not end the
search.
-/

namespace SchemaRecords.Schema

/-- The parts of a text that end in front of a dot, the shortest first. -/
def dottedPrefixes : List Char → List (List Char)
  | [] => []
  | c :: rest => (if c = '.' then [[]] else []) ++ (dottedPrefixes rest).map (c :: ·)

/-- A scope and the scopes around it, the innermost first. -/
def enclosingScopes (scope : String) : List String :=
  scope :: ((dottedPrefixes scope.toList).reverse.map String.ofList ++ [""])

/-- The units that can be seen through some imports.  Imports point at units registered
before, so one pass from the last unit to the first follows every chain of public
imports. -/
def Pool.visibleThrough (pool : Pool) (imports : List UnitId) : List UnitId :=
  pool.units.zipIdx.foldr
    (fun entry visible =>
      if ⟨entry.2⟩ ∈ visible then visible ++ entry.1.publicDependencies else visible)
    imports

/-- What the names of a unit can refer to: its own declarations, and those of a pool
that belong to visible units. -/
structure Environment where
  pool : Pool
  declared : Table String Symbol
  visible : List UnitId

namespace Environment

/-- What a full name stands for among the declarations of the pool that can be seen. -/
def imported? (env : Environment) (fullName : String) : Option Symbol :=
  (env.pool.symbols.find? fullName).filter fun symbol =>
    (env.pool.unitOf? symbol).any fun unit => unit ∈ env.visible

/-- What a full name stands for. -/
def symbol? (env : Environment) (fullName : String) : Option Symbol :=
  (env.declared.find? fullName).or (env.imported? fullName)

/-- What a name stands for in a scope.  A leading dot makes a name absolute. -/
def resolve? (env : Environment) (scope name : String) : Option Symbol :=
  match name.toList with
  | '.' :: absolute => env.symbol? (String.ofList absolute)
  | _ => (enclosingScopes scope).findSome? fun outer => env.symbol? (qualify outer name)

end Environment
end SchemaRecords.Schema
