import SchemaRecords.Proofs.Payload.WritableValues
import SchemaRecords.Proofs.Schema.GivenCharacters
import SchemaRecords.Proofs.Schema.LinkedUnits

/-!
# Names and numbers of enumerations

An enumeration may give a number several names, and a name several numbers.  Either way the last
declaration counts, for each direction on its own.  So a number leads to a name that need not lead
back: the name can be declared again, for another number, behind the last declaration of the
number.  Nothing else stands between a number and its return, and a name always leads to a
number whose last declaration is the one that the number leads to.
-/

namespace SchemaRecords
namespace Schema.Enumeration

variable {enumeration : Enumeration} {n : Int} {name : String} {value : EnumValue}

/-- The last value that is declared for a number. -/
def LastNumbered (enumeration : Enumeration) (n : Int) (value : EnumValue) : Prop :=
  value.number = n ∧ ∃ earlier later, enumeration.values = earlier ++ value :: later ∧
    ∀ other ∈ later, other.number ≠ n

/-- The last value that is declared for a name. -/
def LastNamed (enumeration : Enumeration) (name : String) (value : EnumValue) : Prop :=
  value.name = name ∧ ∃ earlier later, enumeration.values = earlier ++ value :: later ∧
    ∀ other ∈ later, other.name ≠ name

/-- Behind the last value of a number, its name is not declared again. -/
def Returns (enumeration : Enumeration) (n : Int) : Prop :=
  ∀ earlier value later, enumeration.values = earlier ++ value :: later → value.number = n →
    (∀ other ∈ later, other.number ≠ n) → ∀ other ∈ later, other.name ≠ value.name

/-- The first element with a property in a reversed list is the last one in the list. -/
theorem find?_reverse_eq_some_iff {α : Type} {list : List α} {p : α → Prop} [DecidablePred p]
    {element : α} :
    list.reverse.find? (fun other => p other) = some element ↔ p element ∧
      ∃ earlier later, list = earlier ++ element :: later ∧ ∀ other ∈ later, ¬ p other := by
  rw [List.find?_eq_some_iff_append, decide_eq_true_eq]
  refine and_congr_right fun _ => ⟨?_, ?_⟩
  · rintro ⟨front, back, split, before⟩
    refine ⟨back.reverse, front.reverse, ?_, ?_⟩
    · rw [← List.reverse_reverse list, split, List.reverse_append, List.reverse_cons,
        List.append_assoc, List.singleton_append]
    · intro other member
      simpa using before other (List.mem_reverse.mp member)
  · rintro ⟨earlier, later, split, behind⟩
    refine ⟨later.reverse, earlier.reverse, ?_, ?_⟩
    · rw [split, List.reverse_append, List.reverse_cons, List.append_assoc, List.singleton_append]
    · intro other member
      simpa using behind other (List.mem_reverse.mp member)

/-- A number has the name of the last value that is declared for it. -/
theorem nameOf?_eq_some_iff :
    enumeration.nameOf? n = some name ↔
      ∃ value, enumeration.LastNumbered n value ∧ value.name = name := by
  rw [nameOf?, Option.map_eq_some_iff]
  exact exists_congr fun value => and_congr_left fun _ => find?_reverse_eq_some_iff

/-- A name has the number of the last value that is declared for it. -/
theorem numberOf?_eq_some_iff :
    enumeration.numberOf? name = some n ↔
      ∃ value, enumeration.LastNamed name value ∧ value.number = n := by
  rw [numberOf?, Option.map_eq_some_iff]
  exact exists_congr fun value => and_congr_left fun _ => find?_reverse_eq_some_iff

/-- A number that was declared has a last declaration. -/
theorem exists_nameOf? (member : value ∈ enumeration.values) :
    ∃ name, enumeration.nameOf? value.number = some name := by
  apply Option.isSome_iff_exists.mp
  rw [nameOf?, Option.isSome_map, List.find?_isSome]
  exact ⟨value, List.mem_reverse.mpr member, decide_eq_true rfl⟩

/-- The name of a number leads back exactly if it is not declared again behind the number. -/
theorem numberOf?_eq_iff_returns (named : enumeration.nameOf? n = some name) :
    enumeration.numberOf? name = some n ↔ enumeration.Returns n := by
  rcases nameOf?_eq_some_iff.mp named with ⟨value, ⟨number, earlier, later, split, behind⟩, itsName⟩
  constructor
  · intro back otherEarlier other otherLater otherSplit otherNumber otherBehind third member same
    have isName : enumeration.nameOf? n = some other.name :=
      nameOf?_eq_some_iff.mpr ⟨other, ⟨otherNumber, otherEarlier, otherLater, otherSplit,
        otherBehind⟩, rfl⟩
    have otherName : other.name = name := Option.some.inj (isName.symm.trans named)
    -- The last value of the name stands behind, where no value has the number.
    have within : ∃ last ∈ otherLater.reverse, last.name = name :=
      ⟨third, List.mem_reverse.mpr member, same.trans otherName⟩
    have first : (otherLater.reverse.find? fun value => value.name = name).isSome = true := by
      rw [List.find?_isSome]
      rcases within with ⟨last, there, isLast⟩
      exact ⟨last, there, decide_eq_true isLast⟩
    rcases Option.isSome_iff_exists.mp first with ⟨last, isLast⟩
    have lastNumber : last.number = n := by
      rw [numberOf?, otherSplit, List.reverse_append, List.find?_append, List.reverse_cons,
        List.find?_append, isLast] at back
      exact Option.some.inj back
    exact otherBehind last (List.mem_reverse.mp (List.mem_of_find?_eq_some isLast)) lastNumber
  · intro returns
    refine numberOf?_eq_some_iff.mpr ⟨value, ⟨itsName, earlier, later, split, ?_⟩, number⟩
    intro other member
    exact itsName ▸ returns earlier value later split number behind other member

/-- Where no name is declared twice, every number returns. -/
theorem returns_of_nodup (distinct : (enumeration.values.map (·.name)).Nodup) (n : Int) :
    enumeration.Returns n := by
  intro earlier value later split _ _ other member same
  rw [split, List.map_append, List.map_cons] at distinct
  have behind := (List.nodup_cons.mp (List.nodup_append.mp distinct).2.1).1
  exact behind (same ▸ List.mem_map_of_mem member)

end Schema.Enumeration

open Number Schema Payload

/-- Whatever was registered, a number has the name of its last declaration and a name the number
of its own, so that a name leads back unless it is declared again behind its number.  A number that
a decoder shows as a name is written as the number that the name leads to. -/
theorem nameOf_numberOf (attempts : List (String × String)) {id : EnumerationId}
    {enumeration : Enumeration}
    (found : (Pool.registerAll attempts).enumeration? id = some enumeration) :
    (∀ n name, enumeration.nameOf? n = some name → ∃ last, enumeration.LastNamed name last ∧
      enumeration.numberOf? name = some last.number ∧
      (last.number = n ↔ enumeration.Returns n)) ∧
    (∀ n name, enumeration.numberOf? name = some n → ∃ last, enumeration.LastNumbered n last ∧
      enumeration.nameOf? n = some last.name) ∧
    ((enumeration.values.map (·.name)).Nodup → ∀ n, enumeration.Returns n) ∧
    ∀ decoder message field word name,
      readValue? (.registerAll attempts) decoder message field (.enumeration id) (.varint word) =
          some (.ok (.string name)) →
        ∃ wire, convert (.registerAll attempts) field (.enumeration id) (.string name) =
            .ok wire ∧
          (wire = .varint (.ofInt (signed 32 word.toNat)) ↔
            enumeration.Returns (signed 32 word.toNat)) := by
  have leadsBack : ∀ n name, enumeration.nameOf? n = some name →
      ∃ last, enumeration.LastNamed name last ∧ enumeration.numberOf? name = some last.number ∧
        (last.number = n ↔ enumeration.Returns n) := by
    intro n name named
    rcases exists_numberOf? named with ⟨number, isNumber⟩
    rcases Enumeration.numberOf?_eq_some_iff.mp isNumber with ⟨last, isLast, same⟩
    refine ⟨last, isLast, same ▸ isNumber, ?_⟩
    rw [← Enumeration.numberOf?_eq_iff_returns named, isNumber, Option.some.injEq, same]
  refine ⟨leadsBack, ?_, Enumeration.returns_of_nodup, ?_⟩
  · intro n name isNumber
    rcases Enumeration.numberOf?_eq_some_iff.mp isNumber with ⟨value, ⟨_, earlier, later, split, _⟩,
      number⟩
    have member : value ∈ enumeration.values := split ▸ List.mem_append_cons_self
    rcases Enumeration.exists_nameOf? member with ⟨other, named⟩
    rw [number] at named
    rcases Enumeration.nameOf?_eq_some_iff.mp named with ⟨last, isLast, same⟩
    exact ⟨last, isLast, same ▸ named⟩
  · intro decoder message field word name read
    have wellFormed := Pool.wellFormed_registerAll attempts
    have numbers := (wellFormed.enumerations enumeration (List.mem_of_getElem? found)).numbers
    have shown : renderEnumeration (.registerAll attempts) id (signed 32 word.toNat) =
        .string name := Except.ok.inj (Option.some.inj read)
    -- A number without a name is shown as a number, so this one has a name.
    have named : enumeration.nameOf? (signed 32 word.toNat) = some name := by
      rcases renderEnumeration_eq found (signed 32 word.toNat) with ⟨other, named, same⟩ | same
      · exact Json.Value.string.inj (same.symm.trans shown) ▸ named
      · cases same.symm.trans shown
    rcases leadsBack _ name named with ⟨last, ⟨_, earlier, later, split, _⟩, isNumber, returns⟩
    have bounds := signed_bounds 32 (by decide) word.toNat
    have holds : HoldsInteger .int32 last.number :=
      numbers last (split ▸ List.mem_append_cons_self)
    refine ⟨.varint (.ofInt last.number), ?_, ?_⟩
    · rw [convert_of_notMessage rfl]
      simp only [convertSimple, convertEnumeration, found, isNumber]
    · rw [← returns]
      constructor
      · intro same
        exact wireOfInteger_injective holds bounds same
      · intro same
        rw [same]

/-- A schema with an enumeration that declares a number and a name twice. -/
def levelAttempts : List (String × String) :=
  [("level.proto", "enum Level\x7bOFF=0;LOW=1;NONE=0;LOW=-2;\x7d")]

theorem nameOf_numberOf_level :
    ∃ enumeration, (Pool.registerAll levelAttempts).enumeration? ⟨0⟩ = some enumeration ∧
      enumeration.nameOf? 0 = some "NONE" ∧ enumeration.numberOf? "NONE" = some 0 ∧
      enumeration.Returns 0 := by
  have names : ((Pool.registerAll levelAttempts).enumeration? ⟨0⟩).map (fun enumeration =>
      (enumeration.nameOf? 0, enumeration.numberOf? "NONE")) = some (some "NONE", some 0) := by
    rw [levelAttempts, Pool.registerAll_ofList]
    decide +kernel
  rcases Option.map_eq_some_iff.mp names with ⟨enumeration, found, both⟩
  have named : enumeration.nameOf? 0 = some "NONE" := congrArg Prod.fst both
  have isNumber : enumeration.numberOf? "NONE" = some 0 := congrArg Prod.snd both
  rcases nameOf_numberOf levelAttempts found with ⟨leadsBack, _⟩
  rcases leadsBack 0 "NONE" named with ⟨last, _, itsNumber, returns⟩
  have same : last.number = 0 := Option.some.inj (itsNumber.symm.trans isNumber)
  exact ⟨enumeration, found, named, isNumber, returns.mp same⟩

/-- The last name of a number may stand for another number. -/
theorem nameOf_numberOf_low :
    ∃ enumeration, (Pool.registerAll levelAttempts).enumeration? ⟨0⟩ = some enumeration ∧
      enumeration.nameOf? 1 = some "LOW" ∧ enumeration.numberOf? "LOW" = some (-2) := by
  have names : ((Pool.registerAll levelAttempts).enumeration? ⟨0⟩).map (fun enumeration =>
      (enumeration.nameOf? 1, enumeration.numberOf? "LOW")) = some (some "LOW", some (-2)) := by
    rw [levelAttempts, Pool.registerAll_ofList]
    decide +kernel
  rcases Option.map_eq_some_iff.mp names with ⟨enumeration, found, both⟩
  exact ⟨enumeration, found, congrArg Prod.fst both, congrArg Prod.snd both⟩

end SchemaRecords
