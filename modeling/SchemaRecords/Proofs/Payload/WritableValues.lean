import SchemaRecords.Proofs.Number.SingleDigits
import SchemaRecords.Proofs.Payload.CarriedValues

/-!
# Values that can be written

Every value that a decoder shows can be written, whatever its type.  This also holds where it need
not be written as what it was read from: a floating-point number may be rounded, but what was
finite stays finite, and a name that an enumeration uses twice still stands for some number.
-/

namespace SchemaRecords.Payload

open SchemaRecords.Number
open SchemaRecords.Schema

/-- A value that can be written as a value of some type. -/
def Writable (pool : Pool) (type : ValueType) (value : Json.Value) : Prop :=
  ∃ wire, Written pool type value wire

/-! ## Floating-point numbers -/

/-- A double is read back, unless it is not finite; then it is still read as something that is
not. -/
theorem exists_of_renderDouble (x : Double) :
    ∃ y : Double, (∀ field, readDouble field (renderDouble x) = .ok y) ∧
      (y = x ∨ x.isFinite = false ∧ y.isFinite = false) := by
  unfold renderDouble
  split
  · exact ⟨x, fun _ => rfl, Or.inl rfl⟩
  · rename_i negative reading
    have infinite : x.isFinite = false := by rw [Double.isFinite, reading]
    cases negative
    · exact ⟨_, fun _ => rfl, Or.inr ⟨infinite, by decide⟩⟩
    · exact ⟨_, fun _ => rfl, Or.inr ⟨infinite, by decide⟩⟩
  · rename_i reading
    have infinite : x.isFinite = false := by rw [Double.isFinite, reading]
    exact ⟨_, fun _ => rfl, Or.inr ⟨infinite, by decide⟩⟩

theorem isNull_renderDouble (x : Double) : (renderDouble x).isNull = false := by
  unfold renderDouble
  split <;> rfl

theorem writable_double (pool : Pool) (x : Double) :
    Writable pool (.scalar .double) (renderDouble x) := by
  rcases exists_of_renderDouble x with ⟨y, read, _⟩
  refine ⟨.fixed64 y.word, isNull_renderDouble x, rfl, fun field => ?_⟩
  rw [convert_of_notMessage rfl]
  simp only [convertSimple, convertScalar, read field]
  rfl

theorem writable_float (pool : Pool) (word : UInt32) :
    Writable pool (.scalar .float) (renderDouble (.ofSingleDigits word)) := by
  rcases exists_of_renderDouble (.ofSingleDigits word) with ⟨y, read, same⟩
  have kept : (y.isFinite && isInfiniteSingle y.toSingle) = false := by
    cases finite : y.isFinite with
    | false => rfl
    | true =>
      rcases same with isSame | ⟨_, infinite⟩
      · subst isSame
        rcases toSingle_ofSingleDigits_finite finite with ⟨_, _, _, reading⟩
        rw [isInfiniteSingle, reading]
        rfl
      · cases finite.symm.trans infinite
  refine ⟨.fixed32 y.toSingle, isNull_renderDouble _, rfl, fun field => ?_⟩
  rw [convert_of_notMessage rfl]
  simp only [convertSimple, convertScalar, readSingle, read field, kept]
  rfl

/-! ## Enumerations -/

theorem exists_numberOf? {enumeration : Enumeration} {n : Int} {name : String}
    (found : enumeration.nameOf? n = some name) :
    ∃ number, enumeration.numberOf? name = some number := by
  rcases Option.map_eq_some_iff.mp found with ⟨value, first, same⟩
  have member := List.mem_of_find?_eq_some first
  apply Option.isSome_iff_exists.mp
  rw [Enumeration.numberOf?, Option.isSome_map, List.find?_isSome]
  exact ⟨value, member, decide_eq_true same⟩

section Enumerations

variable {pool : Pool} {id : EnumerationId} {enumeration : Enumeration}
  (found : pool.enumeration? id = some enumeration)
include found

theorem written_name {name : String} {number : Int}
    (isNumber : enumeration.numberOf? name = some number) :
    Written pool (.enumeration id) (.string name) (.varint (.ofInt number)) := by
  refine ⟨rfl, rfl, fun field => ?_⟩
  rw [convert_of_notMessage rfl]
  simp only [convertSimple, convertEnumeration, found, isNumber]

theorem written_number {n : Int} (bounds : -2 ^ 31 ≤ n ∧ n < 2 ^ 31) :
    Written pool (.enumeration id) (.int n) (.varint (.ofInt n)) := by
  refine ⟨rfl, rfl, fun field => ?_⟩
  rw [convert_of_notMessage rfl, convertSimple, convertEnumeration_int found bounds]

theorem writable_enumeration {n : Int} (bounds : -2 ^ 31 ≤ n ∧ n < 2 ^ 31) :
    Writable pool (.enumeration id) (renderEnumeration pool id n) := by
  rcases renderEnumeration_eq found n with ⟨name, itsName, shown⟩ | shown
  · rcases exists_numberOf? itsName with ⟨number, isNumber⟩
    exact shown ▸ ⟨_, written_name found isNumber⟩
  · exact shown ▸ ⟨_, written_number found bounds⟩

end Enumerations

/-! ## All types but messages -/

theorem isSimple_or_float (pool : Pool) (type : Scalar) :
    IsSimple pool (.scalar type) ∨ type = .float ∨ type = .double := by
  by_cases float : type = .float
  · exact Or.inr (Or.inl float)
  · by_cases double : type = .double
    · exact Or.inr (Or.inr double)
    · exact Or.inl ⟨float, double⟩

section Simple

variable {pool : Pool} {type : ValueType} (known : pool.HasType type)
  (notMessage : type.isMessage = false)
include known notMessage

/-- What is read from a record can be written. -/
theorem writable_of_readValue? {decoder : Decoder} {message field : String} {wire : Wire.Value}
    {value : Json.Value}
    (read : readValue? pool decoder message field type wire = some (.ok value)) :
    Writable pool type value := by
  cases type with
  | message id => cases notMessage
  | enumeration id =>
    rcases known with ⟨enumeration, found⟩
    cases wire with
    | varint word =>
      rw [← Except.ok.inj (Option.some.inj read)]
      exact writable_enumeration found (signed_bounds 32 (by decide) word.toNat)
    | _ => cases read
  | scalar scalar =>
    rcases isSimple_or_float pool scalar with simple | same | same
    · rcases exists_of_readValue? simple read with ⟨wire, shown⟩
      exact ⟨wire, shown.written simple⟩
    · subst same
      cases wire with
      | fixed32 word =>
        rw [← Except.ok.inj (Option.some.inj read)]
        exact writable_float pool word
      | _ => cases read
    · subst same
      cases wire with
      | fixed64 word =>
        rw [← Except.ok.inj (Option.some.inj read)]
        exact writable_double pool ⟨word⟩
      | _ => cases read

/-- What is shown where nothing was read can be written. -/
theorem writable_renderDefault (wellFormed : pool.WellFormed) :
    Writable pool type (renderDefault pool type) := by
  cases type with
  | message id => cases notMessage
  | enumeration id =>
    rcases known with ⟨enumeration, found⟩
    have numbers := (wellFormed.enumerations enumeration (List.mem_of_getElem? found)).numbers
    simp only [renderDefault, found, Option.elim]
    exact writable_enumeration found (defaultNumber_bounds numbers)
  | scalar scalar =>
    rcases isSimple_or_float pool scalar with simple | same | same
    · exact ⟨_, (shown_zero simple).written simple⟩
    · subst same
      exact writable_float pool 0
    · subst same
      exact writable_double pool .zero

end Simple

end SchemaRecords.Payload
