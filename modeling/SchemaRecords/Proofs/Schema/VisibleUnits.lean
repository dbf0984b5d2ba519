import Mathlib.Logic.Relation
import SchemaRecords.Proofs.Schema.LinkedUnits

/-!
# Units that a text can see

A text sees the units that it imports, and whatever these pass on by public imports, in any number
of steps.  The search for them goes through the units once, from the last one to the first.  That is
enough because an import can only name a unit that is already registered: a unit that is passed on
stands before the one that passes it on.
-/

namespace SchemaRecords.Schema

/-- A unit passes on another one that it imports publicly. -/
def Pool.PassesOn (pool : Pool) (unit other : UnitId) : Prop :=
  ∃ descriptor, pool.unitAt? unit = some descriptor ∧ other ∈ descriptor.publicDependencies

namespace FileDecl

/-- A text imports a unit, under the name by which it is registered. -/
def Imports (pool : Pool) (file : FileDecl) (unit : UnitId) : Prop :=
  ∃ decl ∈ file.imports, pool.unitsByName.find? decl.path = some unit

/-- A text imports a unit and passes it on. -/
def ImportsPublicly (pool : Pool) (file : FileDecl) (unit : UnitId) : Prop :=
  ∃ decl ∈ file.imports, decl.isPublic = true ∧ pool.unitsByName.find? decl.path = some unit

/-- A unit is reached by one import of a text and any number of public imports behind it. -/
def CanSee (pool : Pool) (file : FileDecl) (unit : UnitId) : Prop :=
  ∃ direct, file.Imports pool direct ∧ Relation.ReflTransGen pool.PassesOn direct unit

end FileDecl

/-! ## Imports -/

/-- Nothing is lost when repetitions are dropped. -/
theorem mem_firstOccurrences {α : Type} [DecidableEq α] {elements : List α} {element : α} :
    element ∈ firstOccurrences elements ↔ element ∈ elements := by
  refine ⟨mem_of_mem_firstOccurrences, fun member => ?_⟩
  suffices ∀ earlier, element ∈ earlier ∨ element ∈ elements →
      element ∈ elements.foldl
        (fun earlier element => if element ∈ earlier then earlier else earlier ++ [element]) earlier
    from this [] (Or.inr member)
  clear member
  induction elements with
  | nil => exact fun earlier either => either.resolve_right fun impossible => nomatch impossible
  | cons first rest inductionHypothesis =>
    intro earlier either
    apply inductionHypothesis
    dsimp only
    rcases either with old | member
    · left
      split
      · exact old
      · exact List.mem_append_left _ old
    · rcases List.mem_cons.mp member with rfl | later
      · left
        split
        · assumption
        · exact List.mem_append_right _ List.mem_cons_self
      · exact Or.inr later

theorem mem_of_resolveImports {pool : Pool} {decls : List ImportDecl}
    {imports : List (UnitId × Bool)} (resolved : resolveImports pool decls = .ok imports)
    {unit : UnitId} {isPublic : Bool} :
    (unit, isPublic) ∈ imports ↔ ∃ decl ∈ decls, decl.isPublic = isPublic ∧
      pool.unitsByName.find? decl.path = some unit := by
  induction decls generalizing imports with
  | nil =>
    cases resolved
    simp
  | cons decl rest inductionHypothesis =>
    rcases resolveImports_cons_eq_ok_iff.mp resolved with ⟨id, others, found, later, rfl⟩
    rw [List.mem_cons, inductionHypothesis later, List.exists_mem_cons_iff, found, Prod.mk.injEq,
      Option.some.injEq]
    exact or_congr_left (and_comm.trans (and_congr eq_comm eq_comm))

section Units

variable {pool : Pool} {unitName : String} {file : FileDecl} {imports : List (UnitId × Bool)}

theorem mem_dependencies (resolved : resolveImports pool file.imports = .ok imports)
    {unit : UnitId} :
    unit ∈ (linkUnit pool unitName imports file).dependencies ↔ file.Imports pool unit := by
  simp only [linkUnit, mem_firstOccurrences, List.mem_map, Prod.exists, exists_and_right,
    exists_eq_right, mem_of_resolveImports resolved, FileDecl.Imports]
  constructor
  · rintro ⟨isPublic, decl, member, _, found⟩
    exact ⟨decl, member, found⟩
  · rintro ⟨decl, member, found⟩
    exact ⟨decl.isPublic, decl, member, rfl, found⟩

theorem mem_publicDependencies (resolved : resolveImports pool file.imports = .ok imports)
    {unit : UnitId} :
    unit ∈ (linkUnit pool unitName imports file).publicDependencies ↔
      file.ImportsPublicly pool unit := by
  simp only [linkUnit, mem_firstOccurrences, List.mem_map, List.mem_filter, Prod.exists,
    exists_and_right, exists_eq_right, mem_of_resolveImports resolved, FileDecl.ImportsPublicly]

end Units

/-! ## Reaching units -/

namespace Pool

/-- Every unit that is passed on was registered before the one that passes it on. -/
def PassesEarlier (pool : Pool) : Prop :=
  ∀ unit other, pool.PassesOn unit other → other.index < unit.index

theorem passesEarlier_registerAll (attempts : List (String × String)) :
    (registerAll attempts).PassesEarlier := by
  apply registerAll_induction
  · rintro unit other ⟨descriptor, found, _⟩
    cases found
  · intro pool grown name text wellFormed earlier added
    rcases linked_of_addUnit wellFormed added with
      ⟨schema, imports, messages, entries, _, run, _, rfl⟩
    rintro unit other ⟨descriptor, found, member⟩
    rcases (unitAt?_commit _ _).mp found with old | ⟨rfl, rfl⟩
    · exact earlier unit other ⟨descriptor, old, member⟩
    · rcases (mem_publicDependencies run.resolved).mp member with ⟨decl, _, _, named⟩
      rcases (wellFormed.unitsByName _ _).mp named with ⟨known, there, _⟩
      exact (List.getElem?_eq_some_iff.mp there).1

/-- What one unit adds to the units that can be seen. -/
def widen (entry : SchemaUnit × Nat) (visible : List UnitId) : List UnitId :=
  if ⟨entry.2⟩ ∈ visible then visible ++ entry.1.publicDependencies else visible

theorem mem_widen_of_mem {entry : SchemaUnit × Nat} {visible : List UnitId} {unit : UnitId}
    (member : unit ∈ visible) : unit ∈ widen entry visible := by
  unfold widen
  split
  · exact List.mem_append_left _ member
  · exact member

theorem mem_or_of_mem_widen {entry : SchemaUnit × Nat} {visible : List UnitId} {unit : UnitId}
    (member : unit ∈ widen entry visible) :
    unit ∈ visible ∨ ⟨entry.2⟩ ∈ visible ∧ unit ∈ entry.1.publicDependencies := by
  unfold widen at member
  split at member
  · rename_i isVisible
    exact (List.mem_append.mp member).imp_right fun added => ⟨isVisible, added⟩
  · exact Or.inl member

/-- Units that are passed on by units that are seen are seen too, if the units are gone through
from the last one to the first. -/
theorem closed_foldr_widen {entries : List (SchemaUnit × Nat)} {imports : List UnitId}
    (ordered : entries.Pairwise fun first second => first.2 < second.2)
    (earlier : ∀ entry ∈ entries, ∀ other ∈ entry.1.publicDependencies, other.index < entry.2) :
    ∀ entry ∈ entries, ⟨entry.2⟩ ∈ entries.foldr widen imports →
      ∀ other ∈ entry.1.publicDependencies, other ∈ entries.foldr widen imports := by
  induction entries with
  | nil => exact fun _ impossible => nomatch impossible
  | cons first rest inductionHypothesis =>
    rcases List.pairwise_cons.mp ordered with ⟨before, restOrdered⟩
    have later := inductionHypothesis restOrdered fun entry member =>
      earlier entry (List.mem_cons_of_mem _ member)
    intro entry member isVisible other passedOn
    rw [List.foldr_cons] at isVisible ⊢
    have notAfter : first.2 ≤ entry.2 := by
      rcases List.mem_cons.mp member with rfl | listed
      · exact Nat.le_refl _
      · exact Nat.le_of_lt (before entry listed)
    -- What the first unit adds stands before it, so it is none of the units gone through so far.
    have known : ⟨entry.2⟩ ∈ rest.foldr widen imports := by
      rcases mem_or_of_mem_widen isVisible with known | ⟨_, added⟩
      · exact known
      · have := earlier first List.mem_cons_self _ added
        exact absurd notAfter (Nat.not_le.mpr this)
    rcases List.mem_cons.mp member with rfl | listed
    · rw [widen, if_pos known]
      exact List.mem_append_right _ passedOn
    · exact mem_widen_of_mem (later entry listed known other passedOn)

/-- The units that can be seen are those that are reached from an import by units that are
passed on. -/
theorem PassesEarlier.mem_visibleThrough {pool : Pool} (earlier : pool.PassesEarlier)
    {imports : List UnitId} {unit : UnitId} :
    unit ∈ pool.visibleThrough imports ↔
      ∃ direct ∈ imports, Relation.ReflTransGen pool.PassesOn direct unit := by
  have isEntry {entry : SchemaUnit × Nat} (member : entry ∈ pool.units.zipIdx) :
      pool.unitAt? ⟨entry.2⟩ = some entry.1 := List.mk_mem_zipIdx_iff_getElem?.mp member
  change unit ∈ pool.units.zipIdx.foldr widen imports ↔ _
  constructor
  · suffices ∀ entries : List (SchemaUnit × Nat),
        (∀ entry ∈ entries, pool.unitAt? ⟨entry.2⟩ = some entry.1) →
          ∀ unit ∈ entries.foldr widen imports,
            ∃ direct ∈ imports, Relation.ReflTransGen pool.PassesOn direct unit from
      this _ (fun _ member => isEntry member) unit
    intro entries places
    induction entries with
    | nil => exact fun unit member => ⟨unit, member, .refl⟩
    | cons entry rest inductionHypothesis =>
      have later := inductionHypothesis fun other member =>
        places other (List.mem_cons_of_mem _ member)
      intro unit member
      rcases mem_or_of_mem_widen member with known | ⟨isVisible, added⟩
      · exact later unit known
      · rcases later _ isVisible with ⟨direct, isImport, reached⟩
        exact ⟨direct, isImport, reached.tail ⟨entry.1, places entry List.mem_cons_self, added⟩⟩
  · rintro ⟨direct, isImport, reached⟩
    have ordered : pool.units.zipIdx.Pairwise fun first second => first.2 < second.2 := by
      rw [← List.pairwise_map (f := Prod.snd) (R := (· < ·)), List.zipIdx_map_snd]
      exact List.pairwise_lt_range'
    have closed : ∀ entry ∈ pool.units.zipIdx, ⟨entry.2⟩ ∈ pool.units.zipIdx.foldr widen imports →
        ∀ other ∈ entry.1.publicDependencies, other ∈ pool.units.zipIdx.foldr widen imports :=
      closed_foldr_widen ordered fun entry member other added =>
        earlier ⟨entry.2⟩ other ⟨entry.1, isEntry member, added⟩
    induction reached with
    | refl =>
      generalize pool.units.zipIdx = entries
      induction entries with
      | nil => exact isImport
      | cons entry rest inductionHypothesis => exact mem_widen_of_mem inductionHypothesis
    | tail _ step inductionHypothesis =>
      rcases step with ⟨descriptor, found, added⟩
      exact closed ⟨descriptor, _⟩ (List.mk_mem_zipIdx_iff_getElem?.mpr found)
        inductionHypothesis _ added

end Pool

end SchemaRecords.Schema
