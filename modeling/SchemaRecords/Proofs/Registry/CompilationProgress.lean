import Mathlib.Data.List.Chain
import SchemaRecords.Proofs.Registry.CompilationRuns
import SchemaRecords.Proofs.Registry.ReferenceSearch
import SchemaRecords.Proofs.Registry.ReferenceWalk
import SchemaRecords.Proofs.Schema.LinkedUnits

/-!
# Compilations as searches and walks

A compilation is a search that also says when to register what it has found.  The references
that its waiting units have still to meet, put one behind the other, are those of the search.
Its registered units and the waiting ones are the units that were found.

It is a walk as well, written as a loop: its waiting units are the calls of the recursion that
have not returned, and to register a unit is to return from the walk of its references.
-/

namespace SchemaRecords.Registry

open Relation
open SchemaRecords.Schema

namespace WaitingUnit

/-- A waiting unit as what was found for its name. -/
def found (unit : WaitingUnit) : String × RegisteredSchema := (unit.name, unit.schema)

/-- The references that a waiting unit has still to meet. -/
def remaining (unit : WaitingUnit) : List Reference := unit.schema.references.drop unit.met

/-- The references that a waiting unit has met. -/
def past (unit : WaitingUnit) : List Reference := unit.schema.references.take unit.met

variable {unit : WaitingUnit} {reference : Reference}

theorem remaining_of_next? (meets : unit.next? = some reference) :
    unit.remaining = reference :: unit.advance.remaining := by
  rcases List.getElem?_eq_some_iff.mp meets with ⟨inRange, isReference⟩
  rw [remaining, List.drop_eq_getElem_cons inRange, isReference]
  rfl

theorem past_of_next? (meets : unit.next? = some reference) :
    unit.advance.past = unit.past ++ [reference] := by
  have isNext : unit.schema.references[unit.met]? = some reference := meets
  rw [past, advance, List.take_add_one, isNext]
  rfl

theorem mem_of_next? (meets : unit.next? = some reference) :
    reference ∈ unit.schema.references := List.mem_of_getElem? meets

theorem remaining_of_done (done : unit.next? = none) : unit.remaining = [] :=
  List.drop_of_length_le (List.getElem?_eq_none_iff.mp done)

theorem past_of_done (done : unit.next? = none) : unit.past = unit.schema.references :=
  List.take_of_length_le (List.getElem?_eq_none_iff.mp done)

end WaitingUnit

/-! ## Chains of units -/

/-- Every unit but the first has a reference to the one in front of it. -/
def Chained (units : List (String × RegisteredSchema)) : Prop :=
  units.IsChain fun inner outer => ∃ reference ∈ outer.2.references, reference.name = inner.1

/-- Units of which each refers to the one in front lead from any of them to the first. -/
theorem Chained.reflTransGen {units inner : List (String × RegisteredSchema)}
    {first unit : String × RegisteredSchema} (chained : Chained (first :: inner))
    (subset : first :: inner ⊆ units) (member : unit ∈ first :: inner) :
    ReflTransGen (Refers units) unit.1 first.1 := by
  induction inner generalizing first with
  | nil =>
    cases List.mem_singleton.mp member
    exact .refl
  | cons second inner inductionHypothesis =>
    rcases List.mem_cons.mp member with rfl | later
    · exact .refl
    · rcases List.isChain_cons_cons.mp chained with ⟨⟨reference, refers, isName⟩, chained⟩
      have inside : second :: inner ⊆ units :=
        fun _ member => subset (List.mem_cons_of_mem _ member)
      exact (inductionHypothesis chained inside later).tail
        ⟨second.2, inside List.mem_cons_self, reference, refers, isName⟩

/-! ## Walks under way -/

/-- The first of some waiting units was come to: the walk of the references of every other one
stands at the reference that leads to the unit in front.  Given are the units that were registered
when it was come to, and the references that were followed until then. -/
inductive Entered (source : Source) (root : RegisteredSchema) :
    List WaitingUnit → List (String × RegisteredSchema) → List Reference → Prop
  | root {unit : WaitingUnit} (isRoot : unit.found = (rootUnit, root)) :
      Entered source root [unit] [] []
  | inside {unit outer : WaitingUnit} {below : List WaitingUnit}
      {units registered : List (String × RegisteredSchema)}
      {references earlier later : List Reference} {reference : Reference}
      (entered : Entered source root (outer :: below) units earlier)
      (walk : Walk source units references later registered)
      (past : outer.past = references ++ [reference]) (isName : reference.name = unit.name)
      (new : reference.name ∉ registered.map (·.1))
      (fetched : source.fetch reference.request = .ok unit.schema) :
      Entered source root (unit :: outer :: below) registered (earlier ++ later ++ [reference])

/-- Where the walk of the references of a schema stands: the first waiting unit is in the course
of its own references.  If no unit waits, the walk is at its end. -/
def Walked (source : Source) (root : RegisteredSchema)
    (registered : List (String × RegisteredSchema)) (followed : List Reference) :
    List WaitingUnit → Prop
  | [] => ∃ before, registered = before ++ [(rootUnit, root)] ∧
      Walk source [] root.references followed before
  | unit :: below => ∃ units earlier later, Entered source root (unit :: below) units earlier ∧
      Walk source units unit.past later registered ∧ followed = earlier ++ later

section Walks

variable {source : Source} {root : RegisteredSchema} {unit : WaitingUnit}
  {below waiting : List WaitingUnit} {units registered : List (String × RegisteredSchema)}
  {followed : List Reference} {reference : Reference}

/-- It does not matter how far the first unit has come since. -/
theorem Entered.advance (entered : Entered source root (unit :: below) units followed) :
    Entered source root (unit.advance :: below) units followed := by
  cases entered with
  | root isRoot => exact .root isRoot
  | inside entered walk past isName new fetched =>
    exact .inside entered walk past isName new fetched

theorem Entered.chained (entered : Entered source root waiting units followed) :
    Chained (waiting.map (·.found)) := by
  induction entered with
  | root _ => exact .singleton _
  | @inside unit outer _ _ _ references _ _ reference _ _ past isName _ _ inductionHypothesis =>
    refine .cons_cons ⟨reference, ?_, isName⟩ inductionHypothesis
    apply List.mem_of_mem_take
    change reference ∈ outer.past
    rw [past]
    exact List.mem_append_right _ (List.mem_singleton_self _)

namespace Walked

theorem start (source : Source) (root : RegisteredSchema) :
    Walked source root [] [] [.start rootUnit root] :=
  ⟨[], [], [], .root rfl, .nil, rfl⟩

theorem pass (walked : Walked source root registered followed (unit :: below))
    (meets : unit.next? = some reference) (known : reference.name ∈ registered.map (·.1)) :
    Walked source root registered followed (unit.advance :: below) := by
  rcases walked with ⟨units, earlier, later, entered, walk, split⟩
  refine ⟨units, earlier, later, entered.advance, ?_, split⟩
  rw [unit.past_of_next? meets, ← List.append_nil later]
  exact walk.append (.pass known .nil)

theorem follow {schema : RegisteredSchema}
    (walked : Walked source root registered followed (unit :: below))
    (meets : unit.next? = some reference) (new : reference.name ∉ registered.map (·.1))
    (fetched : source.fetch reference.request = .ok schema) :
    Walked source root registered (followed ++ [reference])
      (.start reference.name schema :: unit.advance :: below) := by
  rcases walked with ⟨units, earlier, later, entered, walk, rfl⟩
  refine ⟨registered, earlier ++ later ++ [reference], [], ?_, .nil, (List.append_nil _).symm⟩
  exact .inside entered.advance walk (unit.past_of_next? meets) rfl new fetched

/-- The walk of a unit's references is one step in the walk of the unit that waits for it. -/
theorem register (walked : Walked source root registered followed (unit :: below))
    (done : unit.next? = none) :
    Walked source root (registered ++ [unit.found]) followed below := by
  rcases walked with ⟨units, earlier, later, entered, walk, rfl⟩
  rw [unit.past_of_done done] at walk
  cases entered with
  | root isRoot =>
    rcases unit with ⟨name, schema, met⟩
    cases isRoot
    exact ⟨registered, rfl, walk⟩
  | @inside _ outer below before _ references first between reference entered outerWalk past isName
      new fetched =>
    have inner := Walk.follow new fetched walk .nil
    rw [isName, List.append_nil] at inner
    refine ⟨before, first, between ++ reference :: later, entered, ?_, ?_⟩
    · rw [past]
      exact outerWalk.append inner
    · simp only [List.append_assoc, List.cons_append, List.nil_append]

end Walked
end Walks

/-! ## What a compilation has done -/

/-- How far a compilation has come: it has met and requested what a search has, registered
some units that the search found, in order, and the others wait. -/
structure Progress (source : Source) (id : UInt32) (root : RegisteredSchema) (search : Search)
    (registered : List (String × RegisteredSchema)) (compilation : Compilation) : Prop where
  reached : search.Reached source root
  requests : compilation.requests = .byId id :: search.followed.map (·.request)
  pending : search.pending = compilation.waiting.flatMap (·.remaining)
  pool : compilation.pool = .registerAll (registered.map fun unit => (unit.1, unit.2.text))
  names : compilation.pool.units.map (·.name) = registered.map (·.1)
  units : (registered ++ compilation.waiting.map (·.found)).Perm search.units
  walked : Walked source root registered search.followed compilation.waiting

namespace Progress

variable {source : Source} {id : UInt32} {root : RegisteredSchema} {search : Search}
  {registered : List (String × RegisteredSchema)} {compilation : Compilation}
  {unit : WaitingUnit} {below : List WaitingUnit} {pool grown : Pool} {requests : List Request}
  {reference : Reference} {schema : RegisteredSchema}

theorem known_iff (progress : Progress source id root search registered compilation)
    {name : String} :
    (compilation.pool.unit? name).isSome = true ↔ name ∈ registered.map (·.1) := by
  have wellFormed : compilation.pool.WellFormed :=
    progress.pool ▸ Pool.wellFormed_registerAll _
  rw [wellFormed.unit?_isSome_iff, progress.names]

/-- A name was found exactly if a unit of this name is registered or waits. -/
theorem mem_names_iff (progress : Progress source id root search registered compilation)
    {name : String} :
    name ∈ search.units.map (·.1) ↔
      name ∈ registered.map (·.1) ∨ name ∈ compilation.waiting.map (·.name) := by
  rw [← (progress.units.map (·.1)).mem_iff, List.map_append, List.mem_append, List.map_map]
  rfl

theorem start (source : Source) (id : UInt32) (root : RegisteredSchema) :
    Progress source id root (.start root) [] (.start root [.byId id]) where
  reached := .refl
  requests := rfl
  pending := (List.append_nil _).symm
  pool := rfl
  names := rfl
  units := .refl _
  walked := .start source root

/-- A compilation that passes over a reference finds no unit. -/
theorem pass (progress : Progress source id root search registered ⟨unit :: below, pool, requests⟩)
    (meets : unit.next? = some reference) (known : (pool.unit? reference.name).isSome = true) :
    ∃ next : Search, next.units = search.units ∧
      Progress source id root next registered ⟨unit.advance :: below, pool, requests⟩ := by
  rcases search with ⟨met, followed, units, pending⟩
  have isPending := progress.pending
  simp only [List.flatMap_cons, unit.remaining_of_next? meets, List.cons_append] at isPending
  subst isPending
  have isRegistered : reference.name ∈ registered.map (·.1) := progress.known_iff.mp known
  have isFound := progress.mem_names_iff.mpr (Or.inl isRegistered)
  refine ⟨⟨met ++ [reference], followed, units,
    (unit.advance :: below).flatMap (·.remaining)⟩, rfl, ?_⟩
  exact
    { progress with
      reached := progress.reached.tail (.pass isFound)
      pending := rfl
      walked := progress.walked.pass meets isRegistered }

/-- A compilation that follows a reference puts one unit between those that are registered and
those that wait. -/
theorem follow
    (progress : Progress source id root search registered ⟨unit :: below, pool, requests⟩)
    (meets : unit.next? = some reference) (unknown : ¬ (pool.unit? reference.name).isSome = true)
    (new : reference.name ∉ (unit :: below).map (·.name))
    (fetched : source.fetch reference.request = .ok schema) :
    ∃ next : Search, next.units = search.units ++ [(reference.name, schema)] ∧
      reference.name ∉ search.units.map (·.1) ∧
      Progress source id root next registered
        ⟨.start reference.name schema :: unit.advance :: below, pool,
          requests ++ [reference.request]⟩ := by
  rcases search with ⟨met, followed, units, pending⟩
  have isPending := progress.pending
  simp only [List.flatMap_cons, unit.remaining_of_next? meets, List.cons_append] at isPending
  subst isPending
  have unregistered : reference.name ∉ registered.map (·.1) := fun known =>
    unknown (progress.known_iff.mpr known)
  have isNew : reference.name ∉ units.map (·.1) := fun member =>
    (progress.mem_names_iff.mp member).elim unregistered new
  refine ⟨⟨met ++ [reference], followed ++ [reference], units ++ [(reference.name, schema)],
    schema.references ++ (unit.advance :: below).flatMap (·.remaining)⟩, rfl, isNew, ?_⟩
  exact
    { progress with
      reached := progress.reached.tail (.follow isNew fetched)
      requests := by
        have before : requests = .byId id :: followed.map (·.request) := progress.requests
        simp only [before, List.map_append, List.cons_append]
        rfl
      pending := rfl
      units := by
        have inserted := List.perm_middle.trans (progress.units.cons (reference.name, schema))
        exact inserted.trans (List.perm_append_singleton _ _).symm
      walked := progress.walked.follow meets unregistered fetched }

/-- A compilation that registers a unit leaves the order of its units as it is. -/
theorem register
    (progress : Progress source id root search registered ⟨unit :: below, pool, requests⟩)
    (done : unit.next? = none)
    (added : pool.addUnit unit.name unit.schema.text = .ok grown) :
    Progress source id root search (registered ++ [unit.found]) ⟨below, grown, requests⟩ := by
  have isPool : pool = .registerAll (registered.map fun unit => (unit.1, unit.2.text)) :=
    progress.pool
  have wellFormed : pool.WellFormed := isPool ▸ Pool.wellFormed_registerAll _
  have sameOrder : registered ++ [unit.found] ++ below.map (·.found) =
      registered ++ (unit :: below).map (·.found) := by
    rw [List.append_assoc]
    rfl
  exact
    { progress with
      pending := by
        rw [progress.pending, List.flatMap_cons, unit.remaining_of_done done, List.nil_append]
      pool := by
        rw [List.map_append, List.map_singleton, Pool.registerAll_concat, ← isPool, Pool.register]
        simp only [WaitingUnit.found, added]
      names := by
        rw [Pool.names_of_addUnit wellFormed added, List.map_append, progress.names]
        rfl
      units := sameOrder ▸ progress.units
      walked := progress.walked.register done }

/-- A compilation that has registered all units has them in order. -/
theorem inOrder (progress : Progress source id root search registered ⟨[], pool, requests⟩) :
    InOrder registered := by
  rcases progress.walked with ⟨before, rfl, walk⟩
  exact (walk.inOrder inOrder_nil).concat walk.known

/-- What a move of a compilation does to the search. -/
theorem exists_of_moves {next : Compilation}
    (progress : Progress source id root search registered compilation)
    (moves : Compilation.Moves source compilation next) :
    ∃ later all, Progress source id root later all next := by
  cases moves with
  | pass meets known =>
    rcases progress.pass meets known with ⟨later, _, progress⟩
    exact ⟨later, registered, progress⟩
  | follow meets unknown new fetched =>
    rcases progress.follow meets unknown new fetched with ⟨later, _, _, progress⟩
    exact ⟨later, registered, progress⟩
  | register done added => exact ⟨search, _, progress.register done added⟩

/-- By induction on the moves, from the schema that was asked for on. -/
theorem exists_of_run
    (moved : ReflTransGen (Compilation.Moves source) (.start root [.byId id]) compilation) :
    ∃ search registered, Progress source id root search registered compilation := by
  induction moved with
  | refl => exact ⟨_, _, start source id root⟩
  | tail _ moves inductionHypothesis =>
    rcases inductionHypothesis with ⟨search, registered, progress⟩
    exact progress.exists_of_moves moves

end Progress

/-- A pool that was compiled was built by registering units. -/
theorem exists_registerAll_of_compile {source : Source} {id : UInt32} {requests : List Request}
    {pool : Pool} (compiled : compile source id = some ⟨requests, .ok pool⟩) :
    ∃ attempts, pool = .registerAll attempts := by
  rcases compile_eq_some_iff.mp compiled with ⟨_, _, impossible⟩ | ⟨root, last, _, moved, ends⟩
  · cases impossible
  · rcases Progress.exists_of_run moved with ⟨search, registered, progress⟩
    cases ends
    exact ⟨_, progress.pool⟩

end SchemaRecords.Registry
