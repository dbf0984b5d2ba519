import SchemaRecords.Registry.Compilation

/-!
# Caches of compiled schemas

For every schema identifier a pool is compiled when it is first asked for, and kept.

Next to the pools a cache keeps their identifiers in the order in which they came.  When it
is full the oldest goes, whether or not it was asked for since.  A schema that cannot be
compiled leaves the cache as it was.
-/

namespace SchemaRecords.Registry

open SchemaRecords.Schema

/-- Compiled schemas by their identifiers, these identifiers with the oldest first, and how
many are kept if there is a limit. -/
structure Cache where
  entries : List (UInt32 × Pool)
  order : List UInt32
  limit : Option Nat
  deriving Repr

namespace Cache

/-- A cache with nothing in it.  A limit leaves room for at least one entry. -/
def empty (limit : Option Nat) : Cache := ⟨[], [], limit.map (max 1)⟩

/-- The pool under an identifier. -/
def lookUp (id : UInt32) (entries : List (UInt32 × Pool)) : Option Pool :=
  (entries.find? fun entry => entry.1 = id).map (·.2)

/-- The pool of an identifier, if it is kept. -/
def find? (cache : Cache) (id : UInt32) : Option Pool := lookUp id cache.entries

/-- Entries without that of one identifier. -/
def without (id : UInt32) (entries : List (UInt32 × Pool)) : List (UInt32 × Pool) :=
  entries.filter fun entry => entry.1 ≠ id

/-- Let entries go, the oldest first, until one more fits below the limit or no more are
listed. -/
def evict (limit : Nat) (entries : List (UInt32 × Pool)) :
    (order : List UInt32) → List (UInt32 × Pool) × List UInt32
  | [] => (entries, [])
  | oldest :: order =>
    if limit ≤ entries.length then evict limit (without oldest entries) order
    else (entries, oldest :: order)

/-- The entries and their order when one more comes. -/
def makeRoom (cache : Cache) : List (UInt32 × Pool) × List UInt32 :=
  match cache.limit with
  | none => (cache.entries, cache.order)
  | some limit => evict limit cache.entries cache.order

/-- Keep a pool. -/
def insert (cache : Cache) (id : UInt32) (pool : Pool) : Cache :=
  let (entries, order) := cache.makeRoom
  ⟨(id, pool) :: without id entries, order ++ [id], cache.limit⟩

/-- What comes of asking a cache for a pool. -/
structure Lookup where
  requests : List Request
  cache : Cache
  result : Except RegistryError Pool

/-- Ask for the pool of an identifier; nothing if its compilation never ends. -/
def get (source : Source) (cache : Cache) (id : UInt32) : Option Lookup :=
  match cache.find? id with
  | some pool => some ⟨[], cache, .ok pool⟩
  | none =>
    (compile source id).map fun fetched =>
      match fetched.result with
      | .ok pool => ⟨fetched.requests, cache.insert id pool, .ok pool⟩
      | .error error => ⟨fetched.requests, cache, .error error⟩

end Cache
end SchemaRecords.Registry
