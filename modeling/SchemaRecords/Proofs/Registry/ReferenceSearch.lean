import Mathlib.Data.List.Nodup
import Mathlib.Logic.Relation
import SchemaRecords.Registry.Compilation

/-!
# Searching the references of a schema

The references of a schema, and those of the schemas that they lead to, are met depth first:
where a reference is followed, the references of its schema come before those that were left.
A reference is followed if no unit of its name was found so far, and passed over otherwise.

The search knows nothing of pools, waiting units or cycles.  It says which schema stands for
which name, in which order references are met, and which of them are requested.
-/

namespace SchemaRecords.Registry

open Relation

/-- The schema that was found for one name has a reference of another name. -/
def Refers (units : List (String × RegisteredSchema)) (name other : String) : Prop :=
  ∃ schema, (name, schema) ∈ units ∧ ∃ reference ∈ schema.references, reference.name = other

theorem Refers.mono {units more : List (String × RegisteredSchema)} (subset : units ⊆ more) :
    Refers units ≤ Refers more :=
  fun _ _ ⟨schema, member, refers⟩ => ⟨schema, subset member, refers⟩

/-- A search: the references that were met, those of them that were followed, the schemas that
were found with their names, and the references still to be met, the next one first. -/
structure Search where
  met : List Reference
  followed : List Reference
  units : List (String × RegisteredSchema)
  pending : List Reference

namespace Search

/-- The search that starts from a schema. -/
def start (root : RegisteredSchema) : Search := ⟨[], [], [(rootUnit, root)], root.references⟩

/-- A search meets one more reference. -/
inductive Next (source : Source) : Search → Search → Prop
  | pass {met followed pending : List Reference} {units : List (String × RegisteredSchema)}
      {reference : Reference} (known : reference.name ∈ units.map (·.1)) :
      Next source ⟨met, followed, units, reference :: pending⟩
        ⟨met ++ [reference], followed, units, pending⟩
  | follow {met followed pending : List Reference} {units : List (String × RegisteredSchema)}
      {reference : Reference} {schema : RegisteredSchema}
      (new : reference.name ∉ units.map (·.1))
      (fetched : source.fetch reference.request = .ok schema) :
      Next source ⟨met, followed, units, reference :: pending⟩
        ⟨met ++ [reference], followed ++ [reference], units ++ [(reference.name, schema)],
          schema.references ++ pending⟩

/-- A search that some references may have been met in. -/
def Reached (source : Source) (root : RegisteredSchema) (search : Search) : Prop :=
  ReflTransGen (Next source) (start root) search

variable {source : Source} {root : RegisteredSchema} {search next : Search}

/-! ## What a search has found -/

/-- What is known of a search: each schema but the first was fetched for the reference that was
followed to it, the first one of its name that was met; and names are reached through the
schemas found so far. -/
structure Sound (source : Source) (root : RegisteredSchema) (search : Search) : Prop where
  names : search.units.map (·.1) = rootUnit :: search.followed.map (·.name)
  fetched : ∀ unit ∈ search.units, unit = (rootUnit, root) ∨
    ∃ reference ∈ search.followed,
      reference.name = unit.1 ∧ source.fetch reference.request = .ok unit.2
  distinct : (search.units.map (·.1)).Nodup
  known : ∀ reference ∈ search.met, reference.name ∈ search.units.map (·.1)
  first : ∀ reference ∈ search.followed,
    search.met.find? (fun other => other.name = reference.name) = some reference
  covered : ∀ unit ∈ search.units, ∀ reference ∈ unit.2.references,
    reference ∈ search.met ∨ reference ∈ search.pending
  reachable : ∀ name ∈ search.units.map (·.1), ReflTransGen (Refers search.units) rootUnit name
  ahead : ∀ reference ∈ search.pending,
    ReflTransGen (Refers search.units) rootUnit reference.name

theorem sound_start (source : Source) (root : RegisteredSchema) :
    Sound source root (start root) where
  names := rfl
  fetched := fun _ member => Or.inl (List.mem_singleton.mp member)
  distinct := List.nodup_singleton _
  known := by simp [start]
  first := by simp [start]
  covered := by
    intro unit member reference refers
    cases List.mem_singleton.mp member
    exact Or.inr refers
  reachable := by
    intro name member
    cases List.mem_singleton.mp member
    exact .refl
  ahead := fun reference member =>
    .single ⟨root, List.mem_singleton_self _, reference, member, rfl⟩

/-- Passing over a reference finds nothing and loses nothing. -/
theorem Sound.pass {met followed pending : List Reference}
    {units : List (String × RegisteredSchema)} {reference : Reference}
    (sound : Sound source root ⟨met, followed, units, reference :: pending⟩)
    (known : reference.name ∈ units.map (·.1)) :
    Sound source root ⟨met ++ [reference], followed, units, pending⟩ where
  names := sound.names
  fetched := sound.fetched
  distinct := sound.distinct
  known := by
    intro other member
    rcases List.mem_append.mp member with before | here
    · exact sound.known other before
    · exact List.mem_singleton.mp here ▸ known
  first := by
    intro other member
    rw [List.find?_append, sound.first other member, Option.some_or]
  covered := by
    intro unit member other refers
    rcases sound.covered unit member other refers with before | later
    · exact Or.inl (List.mem_append_left _ before)
    · rcases List.mem_cons.mp later with here | later
      · exact Or.inl (List.mem_append_right _ (List.mem_singleton.mpr here))
      · exact Or.inr later
  reachable := sound.reachable
  ahead := fun other member => sound.ahead other (List.mem_cons_of_mem _ member)

/-- Following a reference finds one schema, of a name that no reference had before. -/
theorem Sound.follow {met followed pending : List Reference}
    {units : List (String × RegisteredSchema)} {reference : Reference}
    {schema : RegisteredSchema}
    (sound : Sound source root ⟨met, followed, units, reference :: pending⟩)
    (new : reference.name ∉ units.map (·.1))
    (fetched : source.fetch reference.request = .ok schema) :
    Sound source root ⟨met ++ [reference], followed ++ [reference],
      units ++ [(reference.name, schema)], schema.references ++ pending⟩ := by
  have grown : units ⊆ units ++ [(reference.name, schema)] := List.subset_append_left _ _
  have lifted {name : String} (path : ReflTransGen (Refers units) rootUnit name) :
      ReflTransGen (Refers (units ++ [(reference.name, schema)])) rootUnit name :=
    ReflTransGen.mono (Refers.mono grown) _ _ path
  have here : ReflTransGen (Refers (units ++ [(reference.name, schema)])) rootUnit reference.name :=
    lifted (sound.ahead reference List.mem_cons_self)
  -- A reference that was met before would have brought a schema of its name.
  have unmet : met.find? (fun other => other.name = reference.name) = none := by
    rw [List.find?_eq_none]
    intro other member same
    exact new (of_decide_eq_true same ▸ sound.known other member)
  constructor
  case names =>
    have before : units.map (·.1) = rootUnit :: followed.map (·.name) := sound.names
    simp only [List.map_append, before, List.cons_append, List.map_cons, List.map_nil]
  case fetched =>
    intro unit member
    rcases List.mem_append.mp member with before | last
    · rcases sound.fetched unit before with isRoot | ⟨other, listed, isName, answer⟩
      · exact Or.inl isRoot
      · exact Or.inr ⟨other, List.mem_append_left _ listed, isName, answer⟩
    · cases List.mem_singleton.mp last
      exact Or.inr ⟨reference, List.mem_append_right _ (List.mem_singleton_self _), rfl, fetched⟩
  case distinct =>
    rw [List.map_append, List.nodup_append]
    refine ⟨sound.distinct, List.nodup_singleton _, fun name member other isNew same => ?_⟩
    have isName : name = reference.name := same.trans (List.mem_singleton.mp isNew)
    exact new (isName ▸ member)
  case known =>
    intro other member
    rw [List.map_append]
    rcases List.mem_append.mp member with before | last
    · exact List.mem_append_left _ (sound.known other before)
    · exact List.mem_append_right _ (List.mem_singleton.mp last ▸ List.mem_singleton_self _)
  case first =>
    intro other member
    rw [List.find?_append]
    rcases List.mem_append.mp member with before | last
    · rw [sound.first other before, Option.some_or]
    · cases List.mem_singleton.mp last
      rw [unmet, Option.none_or]
      simp
  case covered =>
    intro unit member other refers
    rcases List.mem_append.mp member with before | last
    · rcases sound.covered unit before other refers with met | pending
      · exact Or.inl (List.mem_append_left _ met)
      · rcases List.mem_cons.mp pending with here | later
        · exact Or.inl (List.mem_append_right _ (List.mem_singleton.mpr here))
        · exact Or.inr (List.mem_append_right _ later)
    · cases List.mem_singleton.mp last
      exact Or.inr (List.mem_append_left _ refers)
  case reachable =>
    intro name member
    rw [List.map_append] at member
    rcases List.mem_append.mp member with before | last
    · exact lifted (sound.reachable name before)
    · cases List.mem_singleton.mp last
      exact here
  case ahead =>
    intro other member
    rcases List.mem_append.mp member with inner | later
    · have listed := List.mem_append_right units (List.mem_singleton_self (reference.name, schema))
      exact here.tail ⟨schema, listed, other, inner, rfl⟩
    · exact lifted (sound.ahead other (List.mem_cons_of_mem _ later))

/-- By induction on the references that were met. -/
theorem Reached.sound (reached : Reached source root search) : Sound source root search := by
  induction reached with
  | refl => exact sound_start source root
  | tail _ next inductionHypothesis =>
    cases next with
    | pass known => exact inductionHypothesis.pass known
    | follow new fetched => exact inductionHypothesis.follow new fetched

/-- A search that has met all references has found exactly the names that can be reached. -/
theorem Sound.mem_names_iff (sound : Sound source root search) (complete : search.pending = [])
    {name : String} :
    name ∈ search.units.map (·.1) ↔ ReflTransGen (Refers search.units) rootUnit name := by
  refine ⟨sound.reachable name, fun path => ?_⟩
  induction path with
  | refl =>
    rw [sound.names]
    exact List.mem_cons_self
  | tail _ refers _ =>
    rcases refers with ⟨schema, member, reference, refers, rfl⟩
    rcases sound.covered _ member reference refers with met | pending
    · exact sound.known reference met
    · rw [complete] at pending
      cases pending

/-! ## There is one search -/

theorem next_rightUnique (source : Source) : Relator.RightUnique (Next source) := by
  intro search first second one other
  cases one with
  | pass known =>
    cases other with
    | pass _ => rfl
    | follow new _ => exact absurd known new
  | follow new fetched =>
    cases other with
    | pass known => exact absurd known new
    | follow _ fetchedToo =>
      cases Except.ok.inj (fetched.symm.trans fetchedToo)
      rfl

theorem units_subset_of_next (met : ReflTransGen (Next source) search next) :
    search.units ⊆ next.units := by
  induction met with
  | refl => exact List.Subset.refl _
  | tail _ step inductionHypothesis =>
    cases step with
    | pass _ => exact inductionHypothesis
    | follow _ _ => exact fun unit member => List.mem_append_left _ (inductionHypothesis member)

/-- A search that has met all references has found whatever the search finds at any time. -/
theorem Reached.subset_of_complete (reached : Reached source root search)
    (complete : Reached source root next) (isComplete : next.pending = []) :
    search.units ⊆ next.units := by
  rcases ReflTransGen.total_of_right_unique (next_rightUnique source) reached complete with
    before | behind
  · exact units_subset_of_next before
  · rcases behind.cases_head with same | ⟨_, step, _⟩
    · exact same ▸ List.Subset.refl _
    · cases step <;> cases isComplete

end Search
end SchemaRecords.Registry
