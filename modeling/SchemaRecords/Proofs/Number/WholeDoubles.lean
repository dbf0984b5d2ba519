import SchemaRecords.Number.Double
import SchemaRecords.Proofs.Number.Rounding

/-!
# Doubles that are integers

A finite double stands for one rational number.  The test for an integer divides natural numbers
only, but what it finds is exactly the integer that this rational number is, if it is one.
-/

namespace SchemaRecords.Number

/-- A ratio is a natural number if nothing remains. -/
theorem Ratio.value_eq_natCast_iff {a : Ratio} (positive : 0 < a.denominator) (n : Nat) :
    a.value = n ↔ a.numerator % a.denominator = 0 ∧ a.numerator / a.denominator = n := by
  have nonzero : (a.denominator : ℚ) ≠ 0 := Nat.cast_ne_zero.mpr positive.ne'
  have product : a.value = n ↔ a.numerator = n * a.denominator := by
    rw [value, div_eq_iff nonzero]
    exact_mod_cast Iff.rfl
  rw [product]
  constructor
  · intro same
    rw [same, Nat.mul_mod_left, Nat.mul_div_cancel n positive]
    exact ⟨rfl, rfl⟩
  · rintro ⟨nothing, quotient⟩
    rw [← quotient, Nat.div_mul_cancel (Nat.dvd_of_mod_eq_zero nothing)]

/-- An integer is a natural number and its sign. -/
theorem signed_eq_intCast_iff {magnitude : ℚ} (nonneg : 0 ≤ magnitude) (negative : Bool) (n : Int) :
    (if negative then -magnitude else magnitude) = n ↔
      ∃ natural : Nat, magnitude = natural ∧
        (if negative then -natural else natural : Int) = n := by
  constructor
  · intro same
    have size : magnitude = (n.natAbs : Nat) := by
      rw [Nat.cast_natAbs, Int.cast_abs, ← same]
      cases negative
      · exact (abs_of_nonneg nonneg).symm
      · exact ((abs_neg magnitude).trans (abs_of_nonneg nonneg)).symm
    refine ⟨n.natAbs, size, ?_⟩
    have integers : (((if negative then -n.natAbs else n.natAbs : Int) : Int) : ℚ) = n := by
      rw [← same, size]
      cases negative <;> simp
    exact_mod_cast integers
  · rintro ⟨natural, size, same⟩
    rw [← same, size]
    cases negative <;> simp

namespace Double

/-- The rational number that a finite double stands for. -/
def value? (x : Double) : Option ℚ :=
  match x.reading with
  | .finite negative significand scale =>
    some (if negative then -(significand * 2 ^ scale) else significand * 2 ^ scale)
  | _ => none

/-- A double is taken for an integer exactly if it stands for it. -/
theorem integer?_eq_some_iff (x : Double) (n : Int) : x.integer? = some n ↔ x.value? = some ↑n := by
  unfold integer? value?
  cases x.reading with
  | finite negative significand scale =>
    have nonneg : (0 : ℚ) ≤ significand * 2 ^ scale := by positivity
    have whole := Ratio.value_eq_natCast_iff (a := Ratio.scaled significand scale)
      (Nat.two_pow_pos _)
    rw [Ratio.value_scaled] at whole
    dsimp only
    rw [Option.some.injEq, signed_eq_intCast_iff nonneg]
    simp only [whole, and_assoc, exists_and_left, exists_eq_left']
    split
    · rename_i nothing
      simp only [Option.some.injEq, nothing, true_and]
    · rename_i remainder
      simp [remainder]
  | infinite negative => simp
  | notANumber => simp

end Double
end SchemaRecords.Number
