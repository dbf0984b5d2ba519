import Mathlib.Data.Finset.Card
import Mathlib.Data.List.Nodup
import SchemaRecords.Proofs.Outcome
import SchemaRecords.Proofs.Registry.CompilationProgress

/-!
# Cycles of references

A compilation keeps no record of what it has seen but the pool and the units that wait.  That
is enough for it to end whenever only finitely many names can be referred to: each reference
that is met is gone, and each unit that is found takes a name.

The waiting units form a path, so a reference to one of them closes a cycle.  Registered units
are in order, so there is no cycle among them.
-/

namespace SchemaRecords.Registry

open Relation
open SchemaRecords.Schema

variable {source : Source} {id : UInt32} {root : RegisteredSchema} {search : Search}
  {registered : List (String × RegisteredSchema)} {compilation : Compilation}

/-! ## Endings -/

/-- How much is still to be done: the names among some that belong to no unit yet, and the
references that the waiting units have still to meet. -/
def Compilation.rank (names : Finset String) (compilation : Compilation) : Nat × Nat :=
  ((names.filter fun name => ¬ ((compilation.pool.unit? name).isSome = true ∨
      name ∈ compilation.waiting.map (·.name))).card,
    (compilation.waiting.flatMap (·.remaining)).length + compilation.waiting.length)

theorem Progress.rank_eq (progress : Progress source id root search registered compilation)
    (names : Finset String) :
    compilation.rank names = ((names.filter fun name => name ∉ search.units.map (·.1)).card,
      (compilation.waiting.flatMap (·.remaining)).length + compilation.waiting.length) := by
  simp only [Compilation.rank, progress.known_iff, progress.mem_names_iff]

/-- The names that the schemas found so far refer to are among some. -/
def Search.Within (names : Finset String) (search : Search) : Prop :=
  ∀ unit ∈ search.units, ∀ reference ∈ unit.2.references, reference.name ∈ names

/-- Every move leaves less to be done, if names cannot run out: following a reference takes a
name, passing one over takes the reference, and registering a unit takes the unit. -/
theorem Progress.falls {names : Finset String}
    (bounded : ∀ request schema, source.fetch request = .ok schema →
      ∀ reference ∈ schema.references, reference.name ∈ names)
    {next : Compilation} (progress : Progress source id root search registered compilation)
    (within : search.Within names) (moves : Compilation.Moves source compilation next) :
    ∃ later all, Progress source id root later all next ∧ later.Within names ∧
      Prod.Lex (· < ·) (· < ·) (next.rank names) (compilation.rank names) := by
  cases moves with
  | @pass unit below pool requests reference meets known =>
    rcases progress.pass meets known with ⟨later, sameUnits, after⟩
    refine ⟨later, registered, after, ?_, ?_⟩
    · rw [Search.Within, sameUnits]
      exact within
    · rw [progress.rank_eq, after.rank_eq, sameUnits]
      refine Prod.Lex.right _ ?_
      simp only [List.flatMap_cons, unit.remaining_of_next? meets, List.length_append,
        List.length_cons]
      omega
  | @follow unit below pool requests reference schema meets unknown new fetched =>
    rcases progress.follow meets unknown new fetched with ⟨later, moreUnits, isNew, after⟩
    have waits : unit.found ∈ search.units :=
      progress.units.subset (List.mem_append_right _ List.mem_cons_self)
    refine ⟨later, registered, after, ?_, ?_⟩
    · intro other member inner refers
      rw [moreUnits] at member
      rcases List.mem_append.mp member with before | last
      · exact within other before inner refers
      · cases List.mem_singleton.mp last
        exact bounded reference.request schema fetched inner refers
    · rw [progress.rank_eq, after.rank_eq, moreUnits, List.map_append]
      refine Prod.Lex.left _ _ (Finset.card_lt_card ?_)
      refine Finset.ssubset_iff_of_subset ?_ |>.mpr ⟨reference.name, ?_, ?_⟩
      · intro name member
        simp only [Finset.mem_filter, List.mem_append, not_or] at member ⊢
        exact ⟨member.1, member.2.1⟩
      · exact Finset.mem_filter.mpr
          ⟨within _ waits reference (unit.mem_of_next? meets), isNew⟩
      · simp
  | @register unit below pool grown requests done added =>
    have after := progress.register done added
    refine ⟨search, _, after, within, ?_⟩
    rw [progress.rank_eq, after.rank_eq]
    refine Prod.Lex.right _ ?_
    simp only [List.flatMap_cons, List.length_append, List.length_cons]
    omega

/-- If the schemas of a source refer to finitely many names, every compilation ends. -/
theorem exists_compile_eq_some {names : Finset String}
    (bounded : ∀ request schema, source.fetch request = .ok schema →
      ∀ reference ∈ schema.references, reference.name ∈ names) (id : UInt32) :
    ∃ fetch, compile source id = some fetch := by
  rw [compile]
  cases answered : source.fetch (.byId id) with
  | error error => exact ⟨_, rfl⟩
  | ok root =>
    refine Compilation.exists_run_eq_some (wellFounded_lt.prod_lex wellFounded_lt)
      (Compilation.rank names)
      (fun compilation => ∃ search registered,
        Progress source id root search registered compilation ∧ search.Within names)
      ?_ _ ⟨_, _, Progress.start source id root, ?_⟩
    · rintro compilation next ⟨search, registered, progress, within⟩ moves
      rcases progress.falls bounded within moves with ⟨later, all, after, inside, falls⟩
      exact ⟨⟨later, all, after, inside⟩, falls⟩
    · intro unit member
      cases List.mem_singleton.mp member
      exact bounded _ root answered

/-! ## Paths and orders -/

/-- A reference to a waiting unit closes a cycle. -/
theorem Progress.cycle {unit : WaitingUnit} {below : List WaitingUnit} {pool : Pool}
    {requests : List Request} {reference : Reference}
    (progress : Progress source id root search registered ⟨unit :: below, pool, requests⟩)
    (meets : unit.next? = some reference)
    (waits : reference.name ∈ (unit :: below).map (·.name)) :
    TransGen (Refers search.units) reference.name reference.name := by
  have inside : (unit :: below).map (·.found) ⊆ search.units :=
    fun _ member => progress.units.subset (List.mem_append_right _ member)
  rcases List.mem_map.mp waits with ⟨target, listed, isName⟩
  rcases progress.walked with ⟨_, _, _, entered, _⟩
  have path : ReflTransGen (Refers search.units) target.name unit.name :=
    entered.chained.reflTransGen inside (List.mem_map_of_mem listed)
  have closes : Refers search.units unit.name reference.name :=
    ⟨unit.schema, inside List.mem_cons_self, reference, unit.mem_of_next? meets, rfl⟩
  rw [isName] at path
  exact TransGen.tail' path closes

/-- In units that are in order, references lead forwards. -/
theorem InOrder.idxOf_lt {units : List (String × RegisteredSchema)} (ordered : InOrder units)
    (distinct : (units.map (·.1)).Nodup) {name other : String}
    (path : TransGen (Refers units) name other) :
    (units.map (·.1)).idxOf other < (units.map (·.1)).idxOf name := by
  have step {name other : String} (refers : Refers units name other) :
      (units.map (·.1)).idxOf other < (units.map (·.1)).idxOf name := by
    rcases refers with ⟨schema, member, reference, listed, rfl⟩
    rcases List.append_of_mem member with ⟨before, behind, split⟩
    have earlier := ordered before _ behind split reference listed
    rw [split, List.map_append, List.map_cons] at distinct ⊢
    have absent : name ∉ before.map (·.1) := fun member =>
      (List.nodup_append.mp distinct).2.2 name member name List.mem_cons_self rfl
    rw [List.idxOf_append_of_mem earlier, List.idxOf_append_of_notMem absent, List.idxOf_cons_self]
    exact Nat.lt_add_right 0 (List.idxOf_lt_length_of_mem earlier)
  induction path with
  | single refers => exact step refers
  | tail _ refers inductionHypothesis => exact (step refers).trans inductionHypothesis

/-- A schema that can be compiled has no cycle among the units that are found at any time. -/
theorem not_refers_cycle_of_compile {requests : List Request} {pool : Pool}
    (compiled : compile source id = some ⟨requests, .ok pool⟩)
    (answered : source.fetch (.byId id) = .ok root) (reached : search.Reached source root)
    (name : String) : ¬ TransGen (Refers search.units) name name := by
  rcases compile_eq_some_iff.mp compiled with
    ⟨_, _, impossible⟩ | ⟨other, last, fetched, moved, ends⟩
  · cases impossible
  · cases Except.ok.inj (answered.symm.trans fetched)
    rcases Progress.exists_of_run moved with ⟨complete, registered, progress⟩
    cases ends
    intro path
    have all := progress.units
    rw [List.map_nil, List.append_nil] at all
    have distinct := (all.map (·.1)).nodup_iff.mpr progress.reached.sound.distinct
    have subset : search.units ⊆ registered := fun unit member =>
      all.symm.subset (reached.subset_of_complete progress.reached progress.pending member)
    exact Nat.lt_irrefl _
      (progress.inOrder.idxOf_lt distinct (TransGen.mono (Refers.mono subset) _ _ path))

/-! ## Catalogs -/

namespace Catalog

variable {catalog : Catalog} {request : Request} {schema : RegisteredSchema}

/-- The names that the schemas of a catalog refer to. -/
def referenceNames (catalog : Catalog) : Finset String :=
  (catalog.flatMap fun entry => entry.2.references.map (·.name)).toFinset

theorem mem_of_find? (found : catalog.find? request = some schema) :
    (request, schema) ∈ catalog := by
  rcases Option.map_eq_some_iff.mp found with ⟨⟨other, held⟩, isFirst, rfl⟩
  have isRequest := List.find?_some isFirst
  cases of_decide_eq_true isRequest
  exact List.mem_reverse.mp (List.mem_of_find?_eq_some isFirst)

theorem find?_of_fetch (fetched : catalog.source.fetch request = .ok schema) :
    catalog.find? request = some schema := by
  unfold Source.fetch source at fetched
  cases found : catalog.find? request with
  | none =>
    simp only [found] at fetched
    cases fetched
  | some other =>
    simp only [found] at fetched
    split at fetched
    · rw [Except.ok.inj fetched]
    · cases fetched

theorem mem_referenceNames (fetched : catalog.source.fetch request = .ok schema)
    {reference : Reference} (refers : reference ∈ schema.references) :
    reference.name ∈ catalog.referenceNames :=
  List.mem_toFinset.mpr (List.mem_flatMap.mpr
    ⟨_, mem_of_find? (find?_of_fetch fetched), List.mem_map_of_mem refers⟩)

/-- A catalog never answers that there is a cycle. -/
theorem fetch_ne_referenceCycle (catalog : Catalog) (request : Request) (name : String) :
    catalog.source.fetch request ≠ .error (.referenceCycle name) := by
  unfold Source.fetch source
  cases found : catalog.find? request with
  | none =>
    simp only [found]
    exact fun impossible => nomatch impossible
  | some schema =>
    simp only [found]
    split
    · exact fun impossible => nomatch impossible
    · exact fun impossible => nomatch impossible

end Catalog

/-- Whatever the schemas of a catalog refer to, a compilation ends.  A cycle is only reported
where references lead from the unit of its name back to this name, through schemas that were
requested; and no schema is compiled from which a search ever finds a cycle. -/
theorem compile_catalog (catalog : Catalog) (id : UInt32) :
    ∃ fetch, compile catalog.source id = some fetch ∧
      (∀ name, fetch.result = .error (.referenceCycle name) →
        ∃ root, ∃ search : Search, catalog.source.fetch (.byId id) = .ok root ∧
          search.Reached catalog.source root ∧
          fetch.requests = .byId id :: search.followed.map (·.request) ∧
          TransGen (Refers search.units) name name) ∧
      ∀ root (search : Search) name, catalog.source.fetch (.byId id) = .ok root →
        search.Reached catalog.source root → TransGen (Refers search.units) name name →
        ∀ pool, fetch.result ≠ .ok pool := by
  rcases exists_compile_eq_some
    (fun _ _ fetched _ refers => Catalog.mem_referenceNames fetched refers) id with
    ⟨⟨requests, result⟩, compiled⟩
  refine ⟨_, compiled, fun name isCycle => ?_,
    fun root search name answered reached path pool isPool => ?_⟩
  · cases isCycle
    rcases compile_eq_some_iff.mp compiled with
      ⟨error, refused, same⟩ | ⟨root, last, answered, moved, ends⟩
    · cases same
      exact absurd refused (catalog.fetch_ne_referenceCycle _ name)
    · rcases Progress.exists_of_run moved with ⟨search, registered, progress⟩
      cases ends with
      | cycle meets unknown waits =>
        exact ⟨root, search, answered, progress.reached, progress.requests,
          progress.cycle meets waits⟩
      | unanswered meets unknown new refused =>
        exact absurd refused (catalog.fetch_ne_referenceCycle _ name)
  · cases isPool
    exact not_refers_cycle_of_compile compiled answered reached name path

/-- Two schemas that refer to each other. -/
def links : Catalog :=
  [(.byId 1, ⟨"", some protobuf, [⟨"in.proto", "in", 1⟩]⟩),
    (.byVersion "in" 1, ⟨"", some protobuf, [⟨"out.proto", "out", 1⟩]⟩),
    (.byVersion "out" 1, ⟨"", some protobuf, [⟨"in.proto", "in", 2⟩]⟩)]

/-- The cycle is found before a second version of its first schema is requested. -/
theorem compile_catalog_links :
    ∃ requests, compile links.source 1 =
        some ⟨requests, .error (.referenceCycle "in.proto")⟩ ∧
      requests = [.byId 1, .byVersion "in" 1, .byVersion "out" 1] ∧
      ∃ root, ∃ search : Search, links.source.fetch (.byId 1) = .ok root ∧
        search.Reached links.source root ∧
        requests = .byId 1 :: search.followed.map (·.request) ∧
        TransGen (Refers search.units) "in.proto" "in.proto" := by
  have ended : (compileWithin links.source 8 1).map (fun fetch =>
        (fetch.requests, fetch.result.map fun pool => pool.units.map (·.name))) =
      some ([.byId 1, .byVersion "in" 1, .byVersion "out" 1],
        .error (.referenceCycle "in.proto")) := by
    decide +kernel
  rcases Option.map_eq_some_iff.mp ended with ⟨⟨requests, result⟩, ran, facts⟩
  cases Outcome.map_eq_error_iff.mp (congrArg Prod.snd facts)
  have compiled := compile_of_compileWithin ran
  rcases compile_catalog links 1 with ⟨fetch, compiledToo, isCycle, _⟩
  cases compiled.symm.trans compiledToo
  exact ⟨requests, compiled, congrArg Prod.fst facts, isCycle "in.proto" rfl⟩

end SchemaRecords.Registry
