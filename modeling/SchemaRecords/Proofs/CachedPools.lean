import SchemaRecords.Proofs.Registry.CompilationRuns
import SchemaRecords.Proofs.Registry.KeptPools

/-!
# Caches are queues

A cache is a queue of what was inserted: the newest stay, the oldest go first, and asking for
what is there moves nothing.  This is so after any run of questions, of which some may fail.  The
sources may answer each question in another way, so the same question may fail and succeed later.
-/

namespace SchemaRecords.Registry.Cache

open SchemaRecords.Schema

/-- What is true of a cache after a run of questions, in the course of which some identifiers
were inserted: what it keeps, and what one more question does. -/
structure IsQueue (limit : Option Nat) (inserted : List UInt32) (cache : Cache) : Prop where
  distinct : cache.order.Nodup
  same : (cache.entries.map (·.1)).Perm cache.order
  bounded : ∀ most, limit = some most → cache.entries.length ≤ max 1 most
  order : cache.order = newest limit inserted
  kept : ∀ id, (cache.find? id).isSome = true ↔ id ∈ newest limit inserted
  hit : ∀ source id pool, cache.find? id = some pool →
    cache.get source id = some ⟨[], cache, .ok pool⟩
  success : ∀ source id lookup pool, cache.get source id = some lookup →
    lookup.result = .ok pool → lookup.cache.find? id = some pool
  failure : ∀ source id lookup error, cache.get source id = some lookup →
    lookup.result = .error error → lookup.cache = cache

variable {sources : Source → Prop} {limit : Option Nat} {inserted : List UInt32} {cache : Cache}

/-- By induction on the questions. -/
theorem Reached.keepsNewest (reached : Reached sources limit inserted cache) :
    KeepsNewest limit inserted cache := by
  induction reached with
  | start => exact keepsNewest_empty limit
  | hit _ _ found asked inductionHypothesis =>
    rcases Option.isSome_iff_exists.mp found with ⟨pool, isKept⟩
    cases (get_of_hit _ isKept).symm.trans asked
    exact inductionHypothesis
  | failure _ _ asked failed inductionHypothesis =>
    rcases get_cases asked with ⟨_, _, rfl⟩ | ⟨_, _, _, _, rfl⟩ | ⟨_, _, _, _, rfl⟩
    · cases failed
    · cases failed
    · exact inductionHypothesis
  | success _ _ missed asked compiled inductionHypothesis =>
    rcases get_cases asked with ⟨_, found, _⟩ | ⟨_, _, _, _, rfl⟩ | ⟨_, _, _, _, rfl⟩
    · cases missed.symm.trans found
    · exact inductionHypothesis.insert missed _
    · cases compiled

/-- Whatever was asked of a cache, and whatever the sources answered, it is the queue of what was
inserted. -/
theorem reached_isQueue (reached : Reached sources limit inserted cache) :
    IsQueue limit inserted cache := by
  have keeps := reached.keepsNewest
  constructor
  case distinct => exact keeps.distinct
  case same => exact keeps.same
  case bounded =>
    intro most isLimit
    have count := keeps.same.length_eq
    rw [List.length_map] at count
    rw [count, keeps.order, isLimit, newest, List.length_drop]
    omega
  case order => exact keeps.order
  case kept =>
    intro id
    rw [← keeps.mem_order_iff, keeps.order]
  case hit => exact fun source id pool found => get_of_hit source found
  case success =>
    intro source id lookup pool asked compiled
    rcases get_cases asked with ⟨held, found, rfl⟩ | ⟨_, _, held, _, rfl⟩ | ⟨_, _, _, _, rfl⟩
    · exact Except.ok.inj compiled ▸ found
    · exact Except.ok.inj compiled ▸ find?_insert_self _ _ _
    · cases compiled
  case failure =>
    intro source id lookup error asked failed
    rcases get_cases asked with ⟨_, _, rfl⟩ | ⟨_, _, _, _, rfl⟩ | ⟨_, _, _, _, rfl⟩
    · cases failed
    · cases failed
    · rfl

/-- Three schemas that refer to nothing. -/
def marks : Catalog :=
  [(.byId 1, ⟨"message One\x7b\x7d", some protobuf, []⟩),
    (.byId 2, ⟨"message Two\x7b\x7d", some protobuf, []⟩),
    (.byId 3, ⟨"message Three\x7b\x7d", some protobuf, []⟩)]

/-- The first is asked for in vain while nobody has it.  With room for two, it goes when the third
comes, although it was asked for since. -/
theorem reached_isQueue_marks :
    ∃ cache, Reached (fun _ => True) (some 2) [1, 2, 3] cache ∧ cache.order = [2, 3] ∧
      IsQueue (some 2) [1, 2, 3] cache := by
  -- A list and not a statement about all of its members: the latter would be decided for every
  -- identifier there is.
  have ended : [1, 2, 3].all (fun id =>
      ((compileWithin marks.source 2 id).bind (·.result.toOption)).isSome) = true := by
    decide +kernel
  have compiles (id : UInt32) (member : id ∈ [1, 2, 3]) :
      ∃ pool requests, compile marks.source id = some ⟨requests, .ok pool⟩ :=
    (Option.isSome_iff_exists.mp (List.all_eq_true.mp ended id member)).imp fun _ =>
      exists_compile_of_compileWithin
  rcases compiles 1 (by decide) with ⟨one, _, first⟩
  rcases compiles 2 (by decide) with ⟨two, _, second⟩
  rcases compiles 3 (by decide) with ⟨three, _, third⟩
  have inVain : (empty (some 2)).get (Catalog.source []) 1 =
      some ⟨[.byId 1], empty (some 2), .error (.notFound (.byId 1))⟩ := rfl
  have askedInVain : Reached (fun _ => True) (some 2) [] (empty (some 2)) :=
    Reached.start.failure trivial inVain rfl
  have afterOne : Reached (fun _ => True) (some 2) [1] ((empty (some 2)).insert 1 one) :=
    askedInVain.success trivial rfl (get_of_compile rfl first) rfl
  have afterTwo : Reached (fun _ => True) (some 2) [1, 2]
      (((empty (some 2)).insert 1 one).insert 2 two) :=
    afterOne.success trivial rfl (get_of_compile rfl second) rfl
  have again : (((empty (some 2)).insert 1 one).insert 2 two).get marks.source 1 =
      some ⟨[], ((empty (some 2)).insert 1 one).insert 2 two, .ok one⟩ := get_of_hit _ rfl
  have askedAgain : Reached (fun _ => True) (some 2) [1, 2]
      (((empty (some 2)).insert 1 one).insert 2 two) := afterTwo.hit trivial rfl again
  have afterThree : Reached (fun _ => True) (some 2) [1, 2, 3]
      ((((empty (some 2)).insert 1 one).insert 2 two).insert 3 three) :=
    askedAgain.success trivial rfl (get_of_compile rfl third) rfl
  exact ⟨_, afterThree, (reached_isQueue afterThree).order, reached_isQueue afterThree⟩

end SchemaRecords.Registry.Cache
