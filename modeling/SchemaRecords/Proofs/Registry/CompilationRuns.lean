import Mathlib.Logic.Relation
import SchemaRecords.Proofs.Outcome
import SchemaRecords.Registry.Compilation

/-!
# Runs of compilations

A compilation moves in three ways and ends in four.  What it moves to and what it ends with
is decided by its first waiting unit, the pool and the source, so a compilation has a result
exactly if some number of moves leads to an end.
-/

namespace SchemaRecords.Registry

open Relation
open SchemaRecords.Schema

namespace Compilation

variable {source : Source} {compilation next : Compilation} {fetch : Fetch Pool}

/-- What a turn does that ends nothing: it passes over a reference whose unit is registered,
follows a reference to a new unit, or registers a unit. -/
inductive Moves (source : Source) : Compilation → Compilation → Prop
  | pass {unit : WaitingUnit} {below : List WaitingUnit} {pool : Pool} {requests : List Request}
      {reference : Reference} (meets : unit.next? = some reference)
      (known : (pool.unit? reference.name).isSome = true) :
      Moves source ⟨unit :: below, pool, requests⟩ ⟨unit.advance :: below, pool, requests⟩
  | follow {unit : WaitingUnit} {below : List WaitingUnit} {pool : Pool}
      {requests : List Request} {reference : Reference} {schema : RegisteredSchema}
      (meets : unit.next? = some reference) (unknown : ¬ (pool.unit? reference.name).isSome = true)
      (new : reference.name ∉ (unit :: below).map (·.name))
      (fetched : source.fetch reference.request = .ok schema) :
      Moves source ⟨unit :: below, pool, requests⟩
        ⟨.start reference.name schema :: unit.advance :: below, pool,
          requests ++ [reference.request]⟩
  | register {unit : WaitingUnit} {below : List WaitingUnit} {pool grown : Pool}
      {requests : List Request} (done : unit.next? = none)
      (added : pool.addUnit unit.name unit.schema.text = .ok grown) :
      Moves source ⟨unit :: below, pool, requests⟩ ⟨below, grown, requests⟩

/-- What a turn does that ends a compilation: nothing waits any more, a reference leads back
to a waiting unit, a schema cannot be had, or a unit cannot be registered. -/
inductive Ends (source : Source) : Compilation → Fetch Pool → Prop
  | complete {pool : Pool} {requests : List Request} :
      Ends source ⟨[], pool, requests⟩ ⟨requests, .ok pool⟩
  | cycle {unit : WaitingUnit} {below : List WaitingUnit} {pool : Pool} {requests : List Request}
      {reference : Reference} (meets : unit.next? = some reference)
      (unknown : ¬ (pool.unit? reference.name).isSome = true)
      (waits : reference.name ∈ (unit :: below).map (·.name)) :
      Ends source ⟨unit :: below, pool, requests⟩
        ⟨requests, .error (.referenceCycle reference.name)⟩
  | unanswered {unit : WaitingUnit} {below : List WaitingUnit} {pool : Pool}
      {requests : List Request} {reference : Reference} {error : RegistryError}
      (meets : unit.next? = some reference) (unknown : ¬ (pool.unit? reference.name).isSome = true)
      (new : reference.name ∉ (unit :: below).map (·.name))
      (refused : source.fetch reference.request = .error error) :
      Ends source ⟨unit :: below, pool, requests⟩
        ⟨requests ++ [reference.request], .error error⟩
  | rejected {unit : WaitingUnit} {below : List WaitingUnit} {pool : Pool}
      {requests : List Request} {error : CompileError} (done : unit.next? = none)
      (refused : pool.addUnit unit.name unit.schema.text = .error error) :
      Ends source ⟨unit :: below, pool, requests⟩ ⟨requests, .error (.compile unit.name error)⟩

theorem turn_of_moves (moves : Moves source compilation next) :
    compilation.turn source = .goOn next := by
  cases moves with
  | pass meets known => simp only [turn, meets, meet, if_pos known]
  | follow meets unknown new fetched =>
    simp only [turn, meets, meet, if_neg unknown]
    rw [if_neg (by simpa using new)]
    simp only [fetched]
  | register done added => simp only [turn, done, added]

theorem turn_of_ends (ends : Ends source compilation fetch) :
    compilation.turn source = .stop fetch := by
  cases ends with
  | complete => rfl
  | cycle meets unknown waits =>
    simp only [turn, meets, meet, if_neg unknown]
    rw [if_pos (by simpa using waits)]
  | unanswered meets unknown new refused =>
    simp only [turn, meets, meet, if_neg unknown]
    rw [if_neg (by simpa using new)]
    simp only [refused]
  | rejected done refused => simp only [turn, done, refused]

variable (source compilation) in
theorem moves_or_ends :
    (∃ next, Moves source compilation next) ∨ ∃ fetch, Ends source compilation fetch := by
  rcases compilation with ⟨waiting, pool, requests⟩
  cases waiting with
  | nil => exact Or.inr ⟨_, .complete⟩
  | cons unit below =>
    cases meets : unit.next? with
    | none =>
      cases added : pool.addUnit unit.name unit.schema.text with
      | ok grown => exact Or.inl ⟨_, .register meets added⟩
      | error error => exact Or.inr ⟨_, .rejected meets added⟩
    | some reference =>
      by_cases known : (pool.unit? reference.name).isSome = true
      · exact Or.inl ⟨_, .pass meets known⟩
      · by_cases waits : reference.name ∈ (unit :: below).map (·.name)
        · exact Or.inr ⟨_, .cycle meets known waits⟩
        · cases fetched : source.fetch reference.request with
          | ok schema => exact Or.inl ⟨_, .follow meets known waits fetched⟩
          | error error => exact Or.inr ⟨_, .unanswered meets known waits fetched⟩

theorem run_of_moves (moves : Moves source compilation next) :
    compilation.run source = next.run source := by
  rw [run, turn_of_moves moves]

theorem run_of_ends (ends : Ends source compilation fetch) :
    compilation.run source = some fetch := by
  rw [run, turn_of_ends ends]

variable (source) in
/-- What a turn goes on with is a move, and what it stops with is an end. -/
theorem turn_cases (compilation : Compilation) :
    (∃ next, Moves source compilation next ∧ compilation.turn source = .goOn next) ∨
      ∃ fetch, Ends source compilation fetch ∧ compilation.turn source = .stop fetch := by
  rcases moves_or_ends source compilation with ⟨next, moves⟩ | ⟨fetch, ends⟩
  · exact Or.inl ⟨next, moves, turn_of_moves moves⟩
  · exact Or.inr ⟨fetch, ends, turn_of_ends ends⟩

/-- A compilation has a result exactly if moves lead to an end. -/
theorem run_eq_some_iff :
    compilation.run source = some fetch ↔
      ∃ last, ReflTransGen (Moves source) compilation last ∧ Ends source last fetch := by
  constructor
  · -- what holds of a result if it holds of the result of every further turn
    refine run.partial_correctness source (fun compilation fetch =>
      ∃ last, ReflTransGen (Moves source) compilation last ∧ Ends source last fetch)
      (fun later hypothesis compilation fetch result => ?_) compilation fetch
    rcases turn_cases source compilation with
      ⟨next, moves, isTurn⟩ | ⟨other, ends, isTurn⟩
    · rw [isTurn] at result
      rcases hypothesis next fetch result with ⟨last, run, ends⟩
      exact ⟨last, run.head moves, ends⟩
    · rw [isTurn] at result
      exact ⟨compilation, .refl, Option.some.inj result ▸ ends⟩
  · rintro ⟨last, moved, ends⟩
    induction moved using ReflTransGen.head_induction_on with
    | refl => exact run_of_ends ends
    | head moves _ inductionHypothesis => exact (run_of_moves moves).trans inductionHypothesis

/-- The result of a compilation that ends within some number of turns. -/
def runWithin (source : Source) : (turns : Nat) → Compilation → Option (Fetch Pool)
  | 0, _ => none
  | turns + 1, compilation =>
    match compilation.turn source with
    | .goOn next => runWithin source turns next
    | .stop fetch => some fetch

theorem run_of_runWithin {turns : Nat} (ended : runWithin source turns compilation = some fetch) :
    compilation.run source = some fetch := by
  induction turns generalizing compilation with
  | zero => cases ended
  | succ turns inductionHypothesis =>
    rw [runWithin] at ended
    rcases turn_cases source compilation with ⟨next, moves, isTurn⟩ | ⟨other, ends, isTurn⟩
    · rw [isTurn] at ended
      rw [run_of_moves moves, inductionHypothesis ended]
    · rw [isTurn] at ended
      rw [run_of_ends ends, ← ended]

/-- A compilation has a result if something falls with every move that keeps an invariant. -/
theorem exists_run_eq_some {α : Type} {below : α → α → Prop} (wellFounded : WellFounded below)
    (rank : Compilation → α) (invariant : Compilation → Prop)
    (kept : ∀ {compilation next}, invariant compilation → Moves source compilation next →
      invariant next ∧ below (rank next) (rank compilation))
    (compilation : Compilation) (start : invariant compilation) :
    ∃ fetch, compilation.run source = some fetch := by
  induction compilation using (InvImage.wf rank wellFounded).induction with
  | _ compilation inductionHypothesis =>
    rcases moves_or_ends source compilation with ⟨next, moves⟩ | ⟨fetch, ends⟩
    · rcases kept start moves with ⟨holds, falls⟩
      rw [run_of_moves moves]
      exact inductionHypothesis next falls holds
    · exact ⟨fetch, run_of_ends ends⟩

end Compilation

/-- How a compilation comes to a result: the schema itself cannot be had, or moves lead to an
end. -/
theorem compile_eq_some_iff {source : Source} {id : UInt32} {fetch : Fetch Pool} :
    compile source id = some fetch ↔
      (∃ error, source.fetch (.byId id) = .error error ∧ fetch = ⟨[.byId id], .error error⟩) ∨
        ∃ schema last, source.fetch (.byId id) = .ok schema ∧
          ReflTransGen (Compilation.Moves source) (.start schema [.byId id]) last ∧
          Compilation.Ends source last fetch := by
  rw [compile]
  cases answered : source.fetch (.byId id) with
  | error error => simp [eq_comm]
  | ok schema => simp [Compilation.run_eq_some_iff]

/-- The pool of a schema and all that it refers to; nothing if that takes too many turns. -/
def compileWithin (source : Source) (turns : Nat) (id : UInt32) : Option (Fetch Pool) :=
  match source.fetch (.byId id) with
  | .error error => some ⟨[.byId id], .error error⟩
  | .ok schema => (Compilation.start schema [.byId id]).runWithin source turns

section Within

variable {source : Source} {turns : Nat} {id : UInt32}

theorem compile_of_compileWithin {fetch : Fetch Pool}
    (ended : compileWithin source turns id = some fetch) : compile source id = some fetch := by
  rw [compileWithin] at ended
  rw [compile]
  cases answered : source.fetch (.byId id) with
  | error error =>
    rw [answered] at ended
    exact ended
  | ok schema =>
    rw [answered] at ended
    exact Compilation.run_of_runWithin ended

theorem exists_compile_of_compileWithin {pool : Pool}
    (ended : (compileWithin source turns id).bind (·.result.toOption) = some pool) :
    ∃ requests, compile source id = some ⟨requests, .ok pool⟩ := by
  rcases Option.bind_eq_some_iff.mp ended with ⟨⟨requests, result⟩, compiled, isPool⟩
  cases Outcome.toOption_eq_some_iff.mp isPool
  exact ⟨requests, compile_of_compileWithin compiled⟩

end Within

end SchemaRecords.Registry
