import Mathlib.Data.List.Basic
import SchemaRecords.Registry.Compilation

/-!
# Walking the references of a schema

The recursion of which a compilation is the loop: to walk some references is to take them one
after the other, and to walk those of a schema before its unit is put behind the units that
are there.  What comes of a walk are the units in post-order.
-/

namespace SchemaRecords.Registry

/-! ## Orders of units -/

/-- Every reference of a unit names a unit further in front. -/
def InOrder (units : List (String × RegisteredSchema)) : Prop :=
  ∀ before unit behind, units = before ++ unit :: behind →
    ∀ reference ∈ unit.2.references, reference.name ∈ before.map (·.1)

theorem inOrder_nil : InOrder [] := by
  intro before unit behind split
  cases List.append_eq_nil_iff.mp split.symm with
  | intro _ impossible => cases impossible

theorem InOrder.concat {units : List (String × RegisteredSchema)}
    {unit : String × RegisteredSchema} (ordered : InOrder units)
    (known : ∀ reference ∈ unit.2.references, reference.name ∈ units.map (·.1)) :
    InOrder (units ++ [unit]) := by
  intro before other behind split reference refers
  rcases List.eq_nil_or_concat' behind with rfl | ⟨rest, last, rfl⟩
  · rcases List.append_inj' split rfl with ⟨rfl, isLast⟩
    cases isLast
    exact known reference refers
  · rw [← List.cons_append, ← List.append_assoc] at split
    exact ordered before other rest (List.append_inj' split rfl).1 reference refers

/-! ## Walks -/

/-- A walk of some references, from the units that are there to those that are there then, with
the references that are followed on the way.  A reference whose unit is there is passed over. -/
inductive Walk (source : Source) : List (String × RegisteredSchema) → List Reference →
    List Reference → List (String × RegisteredSchema) → Prop
  | nil {units : List (String × RegisteredSchema)} : Walk source units [] [] units
  | pass {units after : List (String × RegisteredSchema)} {references followed : List Reference}
      {reference : Reference} (known : reference.name ∈ units.map (·.1))
      (rest : Walk source units references followed after) :
      Walk source units (reference :: references) followed after
  | follow {units inside after : List (String × RegisteredSchema)}
      {references inner outer : List Reference} {reference : Reference}
      {schema : RegisteredSchema} (new : reference.name ∉ units.map (·.1))
      (fetched : source.fetch reference.request = .ok schema)
      (within : Walk source units schema.references inner inside)
      (rest : Walk source (inside ++ [(reference.name, schema)]) references outer after) :
      Walk source units (reference :: references) (reference :: inner ++ outer) after

namespace Walk

variable {source : Source} {units inside after : List (String × RegisteredSchema)}
  {references more followed later : List Reference}

theorem append (walk : Walk source units references followed inside)
    (rest : Walk source inside more later after) :
    Walk source units (references ++ more) (followed ++ later) after := by
  induction walk with
  | nil => exact rest
  | pass known _ inductionHypothesis => exact .pass known (inductionHypothesis rest)
  | follow new fetched within _ _ inductionHypothesis =>
    rw [List.append_assoc]
    exact .follow new fetched within (inductionHypothesis rest)

/-- A walk loses no unit. -/
theorem subset (walk : Walk source units references followed after) : units ⊆ after := by
  induction walk with
  | nil => exact List.Subset.refl _
  | pass _ _ inductionHypothesis => exact inductionHypothesis
  | follow _ _ _ _ insideSubset afterSubset =>
    exact fun unit member => afterSubset (List.mem_append_left _ (insideSubset member))

/-- A walk finds a unit for every reference. -/
theorem known (walk : Walk source units references followed after) :
    ∀ reference ∈ references, reference.name ∈ after.map (·.1) := by
  induction walk with
  | nil => exact fun _ member => absurd member List.not_mem_nil
  | pass known rest inductionHypothesis =>
    refine List.forall_mem_cons.mpr ⟨?_, inductionHypothesis⟩
    exact List.map_subset _ rest.subset known
  | follow _ _ _ rest _ inductionHypothesis =>
    refine List.forall_mem_cons.mpr ⟨?_, inductionHypothesis⟩
    apply List.map_subset _ rest.subset
    rw [List.map_append]
    exact List.mem_append_right _ (List.mem_singleton_self _)

/-- By induction on the walk: a unit is put behind those that the walk of its references found. -/
theorem inOrder (walk : Walk source units references followed after) (ordered : InOrder units) :
    InOrder after := by
  induction walk with
  | nil => exact ordered
  | pass _ _ inductionHypothesis => exact inductionHypothesis ordered
  | follow _ _ within _ inner outer => exact outer ((inner ordered).concat within.known)

end Walk
end SchemaRecords.Registry
