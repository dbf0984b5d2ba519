import SchemaRecords.Proofs.Schema.UnseenUnits

/-!
# Two units in either order

Two units that both fit behind a pool and declare no common name can be put behind it in either
order.  The two pools hold the same descriptors, those of the units with their places exchanged.

Each of the pools is made of two parts that overlap in what was there before: the pool with the
unit that comes first, which is in place, and the pool with the other unit, which had to make
room.  What is known of the parts carries over to the whole.
-/

namespace SchemaRecords.Schema

/-! ## Exchanging places -/

/-- The place at an index when two runs of places behind some others are exchanged. -/
def exchange (before first second index : Nat) : Nat :=
  if index < before then index
  else if index < before + first then index + second
  else if index < before + first + second then index - first
  else index

theorem exchange_exchange (before first second index : Nat) :
    exchange before second first (exchange before first second index) = index := by
  unfold exchange
  split_ifs <;> omega

theorem exchange_of_lt {before first second index : Nat} (inside : index < before + first) :
    exchange before first second index = moveBack before second index := by
  unfold exchange moveBack
  split_ifs <;> rfl

theorem exchange_moveBack {before first second index : Nat} (inside : index < before + second) :
    exchange before first second (moveBack before first index) = index := by
  unfold exchange moveBack
  split_ifs <;> omega

namespace Pool

variable {pool : Pool} {first second : LinkedUnit}

/-- Two units behind a pool. -/
def both (pool : Pool) (first second : LinkedUnit) : Pool :=
  (pool.commit first).commit (second.relocate (pool.makeRoom first))

/-- The places of two units behind a pool are exchanged. -/
def exchangeUnits (pool : Pool) (first second : LinkedUnit) : Relocation where
  message id :=
    ⟨exchange pool.messages.length first.messages.length second.messages.length id.index⟩
  enumeration id :=
    ⟨exchange pool.enumerations.length first.enumerations.length second.enumerations.length
      id.index⟩
  unit id := ⟨exchange pool.units.length 1 1 id.index⟩

theorem exchangeUnits_injective (pool : Pool) (first second : LinkedUnit) :
    (pool.exchangeUnits first second).Injective where
  message := Function.LeftInverse.injective (g := (pool.exchangeUnits second first).message)
    fun id => congrArg MessageId.mk (exchange_exchange _ _ _ id.index)
  enumeration := Function.LeftInverse.injective (g := (pool.exchangeUnits second first).enumeration)
    fun id => congrArg EnumerationId.mk (exchange_exchange _ _ _ id.index)
  unit := Function.LeftInverse.injective (g := (pool.exchangeUnits second first).unit)
    fun id => congrArg UnitId.mk (exchange_exchange _ _ _ id.index)

/-- The first unit makes room for the second one. -/
theorem exchangeUnits_agree_first (pool : Pool) (first second : LinkedUnit) :
    Relocation.AgreeOn (pool.commit first) (pool.exchangeUnits first second)
      (pool.makeRoom second) where
  message := by
    intro id message found
    have inside := (List.getElem?_eq_some_iff.mp found).1
    rw [commit, List.length_append] at inside
    exact congrArg MessageId.mk (exchange_of_lt inside)
  enumeration := by
    intro id enumeration found
    have inside := (List.getElem?_eq_some_iff.mp found).1
    rw [commit, List.length_append] at inside
    exact congrArg EnumerationId.mk (exchange_of_lt inside)
  unit := by
    intro id unit found
    have inside := (List.getElem?_eq_some_iff.mp found).1
    rw [length_units_commit] at inside
    exact congrArg UnitId.mk (exchange_of_lt inside)

/-- The second unit is back in the place that it made room from. -/
theorem exchangeUnits_agree_second (pool : Pool) (first second : LinkedUnit) :
    Relocation.AgreeOn (pool.commit second)
      ((pool.exchangeUnits first second).after (pool.makeRoom first)) .identity where
  message := by
    intro id message found
    have inside := (List.getElem?_eq_some_iff.mp found).1
    rw [commit, List.length_append] at inside
    exact congrArg MessageId.mk (exchange_moveBack inside)
  enumeration := by
    intro id enumeration found
    have inside := (List.getElem?_eq_some_iff.mp found).1
    rw [commit, List.length_append] at inside
    exact congrArg EnumerationId.mk (exchange_moveBack inside)
  unit := by
    intro id unit found
    have inside := (List.getElem?_eq_some_iff.mp found).1
    rw [length_units_commit] at inside
    exact congrArg UnitId.mk (exchange_moveBack inside)

end Pool

/-- Two units that have no name in common. -/
structure LinkedUnit.Apart (first second : LinkedUnit) : Prop where
  unitNames : first.unit.name ≠ second.unit.name
  symbols : ∀ fullName ∈ first.symbols.map (·.1), fullName ∉ second.symbols.map (·.1)

theorem LinkedUnit.Apart.symm {first second : LinkedUnit} (apart : first.Apart second) :
    second.Apart first where
  unitNames := apart.unitNames.symm
  symbols := fun fullName secondDeclares firstDeclares =>
    apart.symbols fullName firstDeclares secondDeclares

namespace Pool

variable {pool : Pool} {first second : LinkedUnit}

/-! ## Parts of the whole -/

theorem fresh_relocate (secondFresh : second.Fresh pool) (apart : first.Apart second) :
    (second.relocate (pool.makeRoom first)).Fresh (pool.commit first) where
  unitName := (find?_unitsByName_of_ne apart.unitNames.symm).trans secondFresh.unitName
  fresh := by
    intro entry member
    rcases List.mem_map.mp member with ⟨origin, declared, same⟩
    subst same
    have absent : origin.1 ∉ first.symbols.map (·.1) :=
      apart.symm.symbols _ (List.mem_map_of_mem declared)
    exact (find?_symbols_of_notMem absent).trans (secondFresh.fresh origin declared)
  distinct := by
    have names : (second.relocate (pool.makeRoom first)).symbols.map (·.1) =
        second.symbols.map (·.1) := by
      rw [LinkedUnit.relocate, List.map_map]
      rfl
    rw [names]
    exact secondFresh.distinct

/-- The first unit is in place. -/
theorem both_extends (secondFresh : second.Fresh pool) (apart : first.Apart second) :
    (pool.both first second).Extends (pool.commit first) :=
  commit_extends (fresh_relocate secondFresh apart)

/-- The second unit has made room for the first one. -/
theorem both_embeds (wellFormed : pool.WellFormed) (firstFresh : first.Fresh pool)
    (secondFresh : second.Fresh pool) (apart : first.Apart second) :
    Embeds (pool.makeRoom first) (pool.commit second) (pool.both first second) := by
  have fresh := fresh_relocate secondFresh apart
  have kept := (both_extends secondFresh apart).trans (commit_extends firstFresh)
  have old : Embeds (pool.makeRoom first) pool (pool.both first second) :=
    kept.embeds.congr wellFormed (pool.makeRoom_agree first)
  have moves := pool.makeRoom_moves first
  constructor
  · intro id message found
    rcases (message?_commit id message).mp found with there | ⟨position, there, listed⟩
    · exact old.message id message there
    · rw [there]
      refine (message?_commit _ _).mpr (Or.inr ⟨position, moves.message position, ?_⟩)
      rw [LinkedUnit.relocate, List.getElem?_map, listed, Option.map_some]
  · intro id enumeration found
    rcases (enumeration?_commit id enumeration).mp found with there | ⟨position, there, listed⟩
    · exact old.enumeration id enumeration there
    · rw [there]
      refine (enumeration?_commit _ _).mpr (Or.inr ⟨position, moves.enumeration position, ?_⟩)
      rw [LinkedUnit.relocate, List.getElem?_map, listed, Option.map_some]
  · intro id unit found
    rcases (unitAt?_commit id unit).mp found with there | ⟨last, same⟩
    · exact old.unit id unit there
    · rw [last, same]
      exact (unitAt?_commit _ _).mpr (Or.inr ⟨pool.makeRoom_unit first, rfl⟩)
  · intro name symbol found
    rcases (find?_symbols_commit secondFresh name symbol).mp found with declared | registered
    · exact (find?_symbols_commit fresh _ _).mpr (Or.inl (List.mem_map.mpr ⟨_, declared, rfl⟩))
    · exact old.symbol name symbol registered
  · intro name id found
    rcases (find?_unitsByName_commit secondFresh name id).mp found with ⟨same, last⟩ | registered
    · rw [last]
      exact (find?_unitsByName_commit fresh _ _).mpr (Or.inl ⟨same, pool.makeRoom_unit first⟩)
    · exact old.unitName name id registered

/-- A pool that both parts are embedded in has the whole embedded in it. -/
theorem embeds_of_parts (secondFresh : second.Fresh pool) (apart : first.Apart second)
    {relocation : Relocation} {grown : Pool} (inPlace : Embeds relocation (pool.commit first) grown)
    (moved : Embeds (relocation.after (pool.makeRoom first)) (pool.commit second) grown) :
    Embeds relocation (pool.both first second) grown := by
  have fresh := fresh_relocate secondFresh apart
  have moves := pool.makeRoom_moves first
  constructor
  · intro id message found
    rcases (message?_commit id message).mp found with there | ⟨position, there, listed⟩
    · exact inPlace.message id message there
    · rw [LinkedUnit.relocate, List.getElem?_map, Option.map_eq_some_iff] at listed
      rcases listed with ⟨origin, listed, same⟩
      have atOrigin : (pool.commit second).message? ⟨pool.messages.length + position⟩ =
          some origin :=
        (message?_commit _ _).mpr (Or.inr ⟨position, rfl, listed⟩)
      have place : id = (pool.makeRoom first).message ⟨pool.messages.length + position⟩ :=
        there.trans (moves.message position).symm
      rw [← same, Message.relocate_relocate, place]
      exact moved.message _ origin atOrigin
  · intro id enumeration found
    rcases (enumeration?_commit id enumeration).mp found with there | ⟨position, there, listed⟩
    · exact inPlace.enumeration id enumeration there
    · rw [LinkedUnit.relocate, List.getElem?_map, Option.map_eq_some_iff] at listed
      rcases listed with ⟨origin, listed, same⟩
      have atOrigin : (pool.commit second).enumeration? ⟨pool.enumerations.length + position⟩ =
          some origin :=
        (enumeration?_commit _ _).mpr (Or.inr ⟨position, rfl, listed⟩)
      have place : id = (pool.makeRoom first).enumeration ⟨pool.enumerations.length + position⟩ :=
        there.trans (moves.enumeration position).symm
      rw [← same, Enumeration.relocate_relocate, place]
      exact moved.enumeration _ origin atOrigin
  · intro id unit found
    rcases (unitAt?_commit id unit).mp found with there | ⟨last, same⟩
    · exact inPlace.unit id unit there
    · have atOrigin : (pool.commit second).unitAt? ⟨pool.units.length⟩ = some second.unit :=
        (unitAt?_commit _ _).mpr (Or.inr ⟨rfl, rfl⟩)
      rw [same, last, ← pool.makeRoom_unit first, LinkedUnit.relocate, SchemaUnit.relocate_relocate]
      exact moved.unit _ second.unit atOrigin
  · intro name symbol found
    rcases (find?_symbols_commit fresh name symbol).mp found with declared | registered
    · rcases List.mem_map.mp declared with ⟨⟨origin, itsSymbol⟩, ofSecond, same⟩
      cases same
      rw [Symbol.relocate_relocate]
      exact moved.symbol _ _ ((find?_symbols_commit secondFresh _ _).mpr (Or.inl ofSecond))
    · exact inPlace.symbol name symbol registered
  · intro name id found
    rcases (find?_unitsByName_commit fresh name id).mp found with ⟨same, last⟩ | registered
    · rw [last, ← pool.makeRoom_unit first]
      exact moved.unitName _ _
        ((find?_unitsByName_commit secondFresh _ _).mpr (Or.inl ⟨same, rfl⟩))
    · exact inPlace.unitName name id registered

/-- Two units that have no name in common may be put behind a pool in either order. -/
theorem both_embeds_both (wellFormed : pool.WellFormed) (firstFits : first.Fits pool)
    (secondFits : second.Fits pool) (apart : first.Apart second) :
    Embeds (pool.exchangeUnits first second) (pool.both first second) (pool.both second first) := by
  apply embeds_of_parts secondFits.toFresh apart
  · exact (both_embeds wellFormed secondFits.toFresh firstFits.toFresh apart.symm).congr
      (wellFormed.commit firstFits) (exchangeUnits_agree_first pool first second)
  · exact (both_extends firstFits.toFresh apart.symm).embeds.congr (wellFormed.commit secondFits)
      (exchangeUnits_agree_second pool first second)

end Pool
end SchemaRecords.Schema
