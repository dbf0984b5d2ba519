import SchemaRecords.Proofs.Outcome
import SchemaRecords.Proofs.Registry.CompilationProgress

/-!
# The order of compiled units

A schema that can be compiled leaves a pool of all units that its references lead to, each
once and behind those it refers to, itself at the end.  Every other unit was requested once,
for the first reference that named it.
-/

namespace SchemaRecords.Registry

open Relation
open SchemaRecords.Schema

/-- Units in the order in which a pool registered them, and the requests that were made for
them.  The order is that of a walk of the references, with the schema itself behind.  What a
unit refers to is said by the schema that was fetched for it: of two references with one name
the first that is met decides, whatever the other one would lead to. -/
structure PostOrder (source : Source) (id : UInt32) (root : RegisteredSchema) (search : Search)
    (registered : List (String × RegisteredSchema)) (requests : List Request) (pool : Pool) :
    Prop where
  built : pool = .registerAll (registered.map fun unit => (unit.1, unit.2.text))
  names : pool.units.map (·.name) = registered.map (·.1)
  distinct : (registered.map (·.1)).Nodup
  walked : ∃ before, registered = before ++ [(rootUnit, root)] ∧
    Walk source [] root.references search.followed before
  ordered : InOrder registered
  reachable : ∀ name,
    name ∈ registered.map (·.1) ↔ ReflTransGen (Refers registered) rootUnit name
  requested : requests = .byId id :: search.followed.map (·.request)
  fetched : ∀ unit ∈ registered, unit = (rootUnit, root) ∨
    ∃ reference ∈ search.followed,
      reference.name = unit.1 ∧ source.fetch reference.request = .ok unit.2
  once : (registered.map (·.1)).Perm (rootUnit :: search.followed.map (·.name))
  covered : ∀ unit ∈ registered, ∀ reference ∈ unit.2.references, reference ∈ search.met
  first : ∀ reference ∈ search.followed,
    search.met.find? (fun other => other.name = reference.name) = some reference

/-- Whatever a source holds, if a schema can be compiled then its units are registered in
post-order of their references, as a search that has met all references found them. -/
theorem compile_postOrder {source : Source} {id : UInt32} {requests : List Request} {pool : Pool}
    (compiled : compile source id = some ⟨requests, .ok pool⟩) :
    ∃ root search registered, source.fetch (.byId id) = .ok root ∧
      search.Reached source root ∧ search.pending = [] ∧
      PostOrder source id root search registered requests pool := by
  rcases compile_eq_some_iff.mp compiled with
    ⟨_, _, impossible⟩ | ⟨root, last, answered, moved, ends⟩
  · cases impossible
  · rcases Progress.exists_of_run moved with ⟨search, registered, progress⟩
    cases ends
    -- Nothing is left to register: what was registered is what was found, in another order.
    have complete : search.pending = [] := progress.pending
    have units : registered.Perm search.units := by
      have all := progress.units
      rwa [List.map_nil, List.append_nil] at all
    have names := units.map (·.1)
    have sound := progress.reached.sound
    refine ⟨root, search, registered, answered, progress.reached, complete, ?_⟩
    exact
      { built := progress.pool
        names := progress.names
        distinct := names.nodup_iff.mpr sound.distinct
        walked := progress.walked
        ordered := progress.inOrder
        reachable := by
          intro name
          have same : Refers registered = Refers search.units :=
            le_antisymm (Refers.mono units.subset) (Refers.mono units.symm.subset)
          rw [names.mem_iff, same, sound.mem_names_iff complete]
        requested := progress.requests
        fetched := fun unit member => sound.fetched unit (units.mem_iff.mp member)
        once := sound.names ▸ names
        covered := by
          intro unit member reference refers
          rcases sound.covered unit (units.mem_iff.mp member) reference refers with met | pending
          · exact met
          · rw [complete] at pending
            cases pending
        first := sound.first }

/-- A parcel has a route and a stop, and the route has stops too, of an earlier version. -/
def parcels : Catalog :=
  [(.byId 1, ⟨"import \"route.proto\";message Parcel\x7bRoute route=1;\x7d", some protobuf,
      [⟨"route.proto", "route", 1⟩, ⟨"stop.proto", "stop", 3⟩]⟩),
    (.byVersion "route" 1, ⟨"import \"stop.proto\";message Route\x7brepeated Stop stops=1;\x7d",
      some protobuf, [⟨"stop.proto", "stop", 2⟩]⟩),
    (.byVersion "stop" 2, ⟨"message Stop\x7b\x7d", some protobuf, []⟩),
    (.byVersion "stop" 3, ⟨"message Stop\x7bint32 x=1;\x7d", some protobuf, []⟩)]

/-- The stop that the route refers to is met first. -/
theorem compile_postOrder_parcels :
    ∃ requests pool root search registered,
      compile parcels.source 1 = some ⟨requests, .ok pool⟩ ∧
        requests = [.byId 1, .byVersion "route" 1, .byVersion "stop" 2] ∧
        pool.units.map (·.name) = ["stop.proto", "route.proto", "<root>"] ∧
        parcels.source.fetch (.byId 1) = .ok root ∧ search.Reached parcels.source root ∧
        search.pending = [] ∧
        PostOrder parcels.source 1 root search registered requests pool := by
  have ended : (compileWithin parcels.source 8 1).map (fun fetch =>
        (fetch.requests, fetch.result.toOption.map fun pool => pool.units.map (·.name))) =
      some ([.byId 1, .byVersion "route" 1, .byVersion "stop" 2],
        some ["stop.proto", "route.proto", "<root>"]) := by
    decide +kernel
  rcases Option.map_eq_some_iff.mp ended with ⟨⟨requests, result⟩, ran, facts⟩
  rcases Option.map_eq_some_iff.mp (congrArg Prod.snd facts) with ⟨pool, isPool, names⟩
  cases Outcome.toOption_eq_some_iff.mp isPool
  have compiled := compile_of_compileWithin ran
  rcases compile_postOrder compiled with ⟨root, search, registered, all⟩
  exact ⟨requests, pool, root, search, registered, compiled, congrArg Prod.fst facts, names, all⟩

end SchemaRecords.Registry
