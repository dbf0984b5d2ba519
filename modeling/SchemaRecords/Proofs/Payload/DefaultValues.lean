import SchemaRecords.Proofs.EnumerationNames

/-!
# Values that are taken for a default

A decoder takes a value for the default of its type by what it shows of it, an encoder by the bits
that it writes.  For scalar types the two tests agree on everything that is shown, floating-point
numbers included.  For an enumeration they agree on a name exactly if the name stands for zero just
in case the value that is declared first has it.
-/

namespace SchemaRecords
namespace Schema.Enumeration

variable {enumeration : Enumeration}

/-- The first declared value is shown, and it alone, under a name that stands for zero. -/
def ShowsZeroFirst (enumeration : Enumeration) : Prop :=
  ∀ n name, enumeration.nameOf? n = some name →
    (enumeration.numberOf? name = some 0 ↔
      enumeration.nameOf? enumeration.defaultNumber = some name)

/-- The default of an enumeration is declared. -/
theorem exists_nameOf?_defaultNumber (nonempty : enumeration.values ≠ []) :
    ∃ name, enumeration.nameOf? enumeration.defaultNumber = some name := by
  cases values : enumeration.values with
  | nil => exact absurd values nonempty
  | cons first rest =>
    have default : enumeration.defaultNumber = first.number := by rw [defaultNumber, values]
    rw [default]
    exact exists_nameOf? (values ▸ List.mem_cons_self)

/-- If no name is declared twice, the first value has to be the zero. -/
theorem showsZeroFirst_iff (nonempty : enumeration.values ≠ [])
    (distinct : (enumeration.values.map (·.name)).Nodup) :
    enumeration.ShowsZeroFirst ↔ enumeration.defaultNumber = 0 := by
  have back : ∀ n name, enumeration.nameOf? n = some name →
      enumeration.numberOf? name = some n := fun n _ named =>
    (numberOf?_eq_iff_returns named).mpr (returns_of_nodup distinct n)
  constructor
  · intro zeroFirst
    rcases exists_nameOf?_defaultNumber nonempty with ⟨name, named⟩
    have isZero := (zeroFirst _ name named).mpr named
    exact Option.some.inj ((back _ name named).symm.trans isZero)
  · intro zero n name named
    rw [back n name named, zero]
    constructor
    · intro same
      exact Option.some.inj same ▸ named
    · intro isZero
      exact (back n name named).symm.trans (back 0 name isZero)

/-- Zero is declared if the default is shown under a name that stands for it. -/
theorem ShowsZeroFirst.exists_nameOf?_zero (zeroFirst : enumeration.ShowsZeroFirst)
    (nonempty : enumeration.values ≠ []) : ∃ name, enumeration.nameOf? 0 = some name := by
  rcases exists_nameOf?_defaultNumber nonempty with ⟨name, named⟩
  rcases numberOf?_eq_some_iff.mp ((zeroFirst _ name named).mpr named) with
    ⟨value, ⟨_, earlier, later, split, _⟩, number⟩
  exact number ▸ exists_nameOf? (split ▸ List.mem_append_cons_self)

end Schema.Enumeration

namespace Payload

open SchemaRecords.Number SchemaRecords.Schema

/-! ## Agreement on a value -/

/-- A value that a decoder shows is taken for the default exactly if it is written without a bit
set. -/
def SameDefault (pool : Pool) (type : ValueType) (shown : Json.Value) : Prop :=
  ∀ wire, Written pool type shown wire → isDefault pool type shown = isZero wire

section Values

variable {pool : Pool} {type : ValueType} {wire : Wire.Value} {shown : Json.Value}

theorem isDefault_renderDouble {type : Scalar} (float : type = .float ∨ type = .double)
    (x : Double) : isDefault pool (.scalar type) (renderDouble x) = decide (x = .zero) := by
  have default : renderDefault pool (.scalar type) = .number (.real .zero) := by
    rcases float with same | same <;> rw [same] <;> rfl
  have isFinite : Double.zero.reading = .finite false 0 (-1074) := by decide
  rw [isDefault, default]
  unfold renderDouble
  split
  · simp [sameSimple]
  all_goals
    rename_i reading
    have different : x ≠ .zero := by
      rintro rfl
      cases isFinite.symm.trans reading
    exact (decide_eq_false different).symm

theorem sameDefault_float (word : UInt32) :
    SameDefault pool (.scalar .float) (renderDouble (.ofSingleDigits word)) := by
  intro wire written
  rcases exists_of_renderDouble (.ofSingleDigits word) with ⟨y, read, same⟩
  have converted := written.convert ""
  rw [convert_of_notMessage rfl] at converted
  simp only [convertSimple, convertScalar, readSingle, read ""] at converted
  rcases Outcome.map_eq_ok_iff.mp converted with ⟨narrow, isNarrow, rfl⟩
  split at isNarrow
  · cases isNarrow
  · cases isNarrow
    rw [isDefault_renderDouble (.inl rfl), isZero, decide_eq_decide]
    rcases same with same | ⟨shownInfinite, readInfinite⟩
    · rw [same]
      exact toSingle_ofSingleDigits_eq_zero_iff.symm
    · exact iff_of_false (Double.ne_zero_of_not_finite shownInfinite)
        (Double.toSingle_ne_zero_of_not_finite readInfinite)

theorem sameDefault_double (x : Double) :
    SameDefault pool (.scalar .double) (renderDouble x) := by
  intro wire written
  rcases exists_of_renderDouble x with ⟨y, read, same⟩
  have converted := written.convert ""
  rw [convert_of_notMessage rfl] at converted
  simp only [convertSimple, convertScalar, read ""] at converted
  cases converted
  have noBits : y.word = 0 ↔ y = .zero := ⟨congrArg Double.mk, congrArg Double.word⟩
  rw [isDefault_renderDouble (.inr rfl), isZero, decide_eq_decide, noBits]
  rcases same with same | ⟨shownInfinite, readInfinite⟩
  · rw [same]
  · exact iff_of_false (Double.ne_zero_of_not_finite shownInfinite)
      (Double.ne_zero_of_not_finite readInfinite)

/-- For scalar types the two tests agree on everything that a decoder shows. -/
theorem sameDefault_scalar {scalar : Scalar}
    (reads : Reads pool refuse (.scalar scalar) wire shown) :
    SameDefault pool (.scalar scalar) shown := by
  rcases isSimple_or_float pool scalar with simple | rfl | rfl
  · intro other written
    rcases exists_of_readValue? simple (reads "" "") with ⟨partner, isShown⟩
    rw [written.unique (isShown.written simple)]
    exact isShown.default fun _ _ impossible => nomatch impossible
  · cases wire with
    | fixed32 word =>
      exact Except.ok.inj (Option.some.inj (reads "" "")) ▸ sameDefault_float word
    | _ => cases reads "" ""
  · cases wire with
    | fixed64 word =>
      exact Except.ok.inj (Option.some.inj (reads "" "")) ▸ sameDefault_double ⟨word⟩
    | _ => cases reads "" ""

end Values

/-! ## Enumerations -/

section Enumerations

variable {pool : Pool} {id : EnumerationId} {enumeration : Enumeration} {n : Int} {name : String}

theorem renderEnumeration_of_nameOf? (found : pool.enumeration? id = some enumeration)
    (named : enumeration.nameOf? n = some name) : renderEnumeration pool id n = .string name := by
  rw [renderEnumeration, found, Option.bind_some, named]

/-- The default of an enumeration is shown as its name. -/
theorem exists_renderDefault (found : pool.enumeration? id = some enumeration)
    (nonempty : enumeration.values ≠ []) : ∃ default,
      enumeration.nameOf? enumeration.defaultNumber = some default ∧
      renderDefault pool (.enumeration id) = .string default := by
  rcases Enumeration.exists_nameOf?_defaultNumber nonempty with ⟨default, named⟩
  refine ⟨default, named, ?_⟩
  simp only [renderDefault, found, Option.elim]
  exact renderEnumeration_of_nameOf? found named

/-- A name that is shown is the default if the first number has it. -/
theorem isDefault_name (found : pool.enumeration? id = some enumeration)
    (nonempty : enumeration.values ≠ []) :
    isDefault pool (.enumeration id) (.string name) = true ↔
      enumeration.nameOf? enumeration.defaultNumber = some name := by
  rcases exists_renderDefault found nonempty with ⟨default, named, isShown⟩
  rw [isDefault, isShown, sameSimple_string, decide_eq_true_eq, named, Option.some.injEq, eq_comm]

theorem isZero_number (bounds : -2 ^ 31 ≤ n ∧ n < 2 ^ 31) :
    isZero (.varint (.ofInt n)) = true ↔ n = 0 := by
  have zero : isZero (wireOfInteger .int32 n) = decide (n = 0) := isZero_wireOfInteger bounds
  exact (Bool.eq_iff_iff.mp zero).trans decide_eq_true_iff

/-- A name is written as the number that it stands for. -/
theorem exists_written_name (found : pool.enumeration? id = some enumeration)
    (wellFormed : enumeration.WellFormed pool) (named : enumeration.nameOf? n = some name) :
    ∃ number, enumeration.numberOf? name = some number ∧ (-2 ^ 31 ≤ number ∧ number < 2 ^ 31) ∧
      Written pool (.enumeration id) (.string name) (.varint (.ofInt number)) := by
  rcases exists_numberOf? named with ⟨number, isNumber⟩
  rcases Enumeration.numberOf?_eq_some_iff.mp isNumber with ⟨value, ⟨_, earlier, later, split, _⟩,
    same⟩
  have bounds := wellFormed.numbers value (split ▸ List.mem_append_cons_self)
  exact ⟨number, isNumber, same ▸ bounds, written_name found isNumber⟩

/-- The two tests agree on a name that is shown if it stands for zero just in case the first number
has it. -/
theorem sameDefault_name_iff (found : pool.enumeration? id = some enumeration)
    (wellFormed : enumeration.WellFormed pool) (named : enumeration.nameOf? n = some name) :
    SameDefault pool (.enumeration id) (.string name) ↔
      (enumeration.numberOf? name = some 0 ↔
        enumeration.nameOf? enumeration.defaultNumber = some name) := by
  rcases exists_written_name found wellFormed named with ⟨number, isNumber, bounds, written⟩
  have zero : enumeration.numberOf? name = some 0 ↔ isZero (.varint (.ofInt number)) = true := by
    rw [isNumber, Option.some.injEq, isZero_number bounds]
  rw [zero, ← isDefault_name found wellFormed.nonempty]
  constructor
  · intro same
    rw [same _ written]
  · intro same wire other
    rw [other.unique written]
    exact Bool.eq_iff_iff.mpr same.symm

/-- They agree on everything that is shown of an enumeration whose first value is shown as zero. -/
theorem sameDefault_enumeration (found : pool.enumeration? id = some enumeration)
    (wellFormed : enumeration.WellFormed pool) (zeroFirst : enumeration.ShowsZeroFirst)
    (bounds : -2 ^ 31 ≤ n ∧ n < 2 ^ 31) :
    SameDefault pool (.enumeration id) (renderEnumeration pool id n) := by
  cases named : enumeration.nameOf? n with
  | some name =>
    rw [renderEnumeration_of_nameOf? found named]
    exact (sameDefault_name_iff found wellFormed named).mpr (zeroFirst n name named)
  | none =>
    have isShown : renderEnumeration pool id n = .int n := by
      rw [renderEnumeration, found, Option.bind_some, named]
    -- A number without a name is not zero, and is never shown as the default is.
    have nonzero : n ≠ 0 := by
      rintro rfl
      rcases zeroFirst.exists_nameOf?_zero wellFormed.nonempty with ⟨name, isName⟩
      cases named.symm.trans isName
    rcases exists_renderDefault found wellFormed.nonempty with ⟨default, _, isDefaultShown⟩
    intro wire written
    rw [isShown] at written ⊢
    rw [written.unique (written_number found bounds), isDefault, isDefaultShown]
    exact (Bool.eq_false_iff.mpr fun zero => nonzero ((isZero_number bounds).mp zero)).symm

end Enumerations

/-! ## Defaults themselves -/

section Defaults

variable {pool : Pool} {type : ValueType}

theorem isDefault_renderDefault (type : ValueType) :
    isDefault pool type (renderDefault pool type) = true := by
  unfold isDefault
  cases type with
  | scalar scalar => cases scalar <;> simp [renderDefault, sameSimple, Json.Value.int]
  | enumeration id =>
    simp only [renderDefault, renderEnumeration]
    split <;> simp [sameSimple, Json.Value.int]
  | message id => rfl

/-- A default is written without a bit set, if for an enumeration the first value is shown as zero. -/
theorem isZero_of_renderDefault (wellFormed : pool.WellFormed) (known : pool.HasType type)
    (notMessage : type.isMessage = false)
    (zeroFirst : ∀ id enumeration, type = .enumeration id →
      pool.enumeration? id = some enumeration → enumeration.ShowsZeroFirst) {wire : Wire.Value}
    (written : Written pool type (renderDefault pool type) wire) : isZero wire = true := by
  have same : SameDefault pool type (renderDefault pool type) := by
    cases type with
    | message id => cases notMessage
    | enumeration id =>
      rcases known with ⟨enumeration, found⟩
      have facts := wellFormed.enumerations enumeration (List.mem_of_getElem? found)
      simp only [renderDefault, found, Option.elim]
      exact sameDefault_enumeration found facts (zeroFirst id enumeration rfl found)
        (defaultNumber_bounds facts.numbers)
    | scalar scalar =>
      rcases isSimple_or_float pool scalar with simple | rfl | rfl
      · exact sameDefault_scalar (shown_zero simple).reads
      · exact sameDefault_float 0
      · exact sameDefault_double .zero
  rw [← same wire written, isDefault_renderDefault]

end Defaults

end Payload
end SchemaRecords
