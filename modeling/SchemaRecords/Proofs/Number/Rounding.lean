import Mathlib.Algebra.Order.Field.Power
import Mathlib.Data.Nat.Log
import Mathlib.Tactic.FieldSimp
import Mathlib.Tactic.GCongr
import Mathlib.Tactic.Linarith
import Mathlib.Tactic.Positivity
import Mathlib.Tactic.Ring
import SchemaRecords.Bytes
import SchemaRecords.Number.Binary

/-!
# Rounding to a format

Ratios stand for rational numbers, and words of a format for its magnitudes.  A ratio that is no
greater than some magnitude is rounded to no greater one, and one that is no less to no less:
rounding never passes a number that the format can tell apart.  Nothing else about rounding is
needed to see that a number stays finite, or that it does not vanish.
-/

namespace SchemaRecords.Number

/-! ## Ratios -/

namespace Ratio

/-- The rational number of a ratio. -/
def value (a : Ratio) : ℚ := a.numerator / a.denominator

/-- The ratio is not zero, and its denominator is not either. -/
structure Positive (a : Ratio) : Prop where
  numerator : 0 < a.numerator
  denominator : 0 < a.denominator

theorem value_scaled (value : Nat) (scale : Int) :
    (scaled value scale).value = value * 2 ^ scale := by
  rcases Int.eq_nat_or_neg scale with ⟨power, same | same⟩ <;> subst same
  · simp [Ratio.value, scaled]
  · simp [Ratio.value, scaled, div_eq_mul_inv]

theorem value_decimal (value : Nat) (exponent : Int) :
    (decimal value exponent).value = value * 10 ^ exponent := by
  rcases Int.eq_nat_or_neg exponent with ⟨power, same | same⟩ <;> subst same
  · simp [Ratio.value, decimal]
  · simp [Ratio.value, decimal, div_eq_mul_inv]

theorem value_div (a b : Ratio) : (a.div b).value = a.value / b.value := by
  simp only [value, div, Nat.cast_mul]
  exact (div_div_div_eq _ _ _ _).symm

theorem positive_scaled {value : Nat} (some : 0 < value) (scale : Int) :
    (scaled value scale).Positive :=
  ⟨Nat.mul_pos some (Nat.two_pow_pos _), Nat.two_pow_pos _⟩

theorem positive_decimal {value : Nat} (some : 0 < value) (exponent : Int) :
    (decimal value exponent).Positive :=
  ⟨Nat.mul_pos some (Nat.pow_pos (by decide)), Nat.pow_pos (by decide)⟩

theorem two_zpow_le_value_iff {a : Ratio} (positive : 0 < a.denominator) (exponent : Int) :
    (2 : ℚ) ^ exponent ≤ a.value ↔
      a.denominator * 2 ^ exponent.toNat ≤ a.numerator * 2 ^ (-exponent).toNat := by
  have isPositive : (0 : ℚ) < a.denominator := Nat.cast_pos.mpr positive
  rcases Int.eq_nat_or_neg exponent with ⟨power, same | same⟩ <;> subst same
  · rw [value, le_div_iff₀ isPositive, mul_comm, zpow_natCast, Int.toNat_natCast,
      Int.toNat_neg_natCast, Nat.pow_zero, Nat.mul_one]
    exact_mod_cast Iff.rfl
  · rw [value, le_div_iff₀ isPositive, zpow_neg, zpow_natCast, inv_mul_le_iff₀ (by positivity),
      mul_comm, neg_neg, Int.toNat_natCast, Int.toNat_neg_natCast, Nat.pow_zero, Nat.mul_one]
    exact_mod_cast Iff.rfl

theorem le_binaryExponent_and_lt {a : Ratio} (positive : a.Positive) :
    (2 : ℚ) ^ a.binaryExponent ≤ a.value ∧ a.value < 2 ^ (a.binaryExponent + 1) := by
  have numeratorLow : (2 : ℚ) ^ (a.numerator.log2 : Int) ≤ a.numerator := by
    exact_mod_cast Nat.log2_self_le positive.numerator.ne'
  have numeratorHigh : (a.numerator : ℚ) < 2 ^ ((a.numerator.log2 : Int) + 1) := by
    exact_mod_cast Nat.lt_log2_self
  have denominatorLow : (2 : ℚ) ^ (a.denominator.log2 : Int) ≤ a.denominator := by
    exact_mod_cast Nat.log2_self_le positive.denominator.ne'
  have denominatorHigh : (a.denominator : ℚ) < 2 ^ ((a.denominator.log2 : Int) + 1) := by
    exact_mod_cast Nat.lt_log2_self
  have isPositive : (0 : ℚ) < a.denominator := Nat.cast_pos.mpr positive.denominator
  unfold binaryExponent
  dsimp only
  split
  · rename_i reached
    refine ⟨(two_zpow_le_value_iff positive.denominator _).mpr reached, ?_⟩
    rw [value, div_lt_iff₀ isPositive]
    calc (a.numerator : ℚ) < 2 ^ ((a.numerator.log2 : Int) + 1) := numeratorHigh
      _ = 2 ^ ((a.numerator.log2 : Int) - a.denominator.log2 + 1) *
          2 ^ (a.denominator.log2 : Int) := by
        rw [← zpow_add₀ two_ne_zero]
        congr 1
        omega
      _ ≤ 2 ^ ((a.numerator.log2 : Int) - a.denominator.log2 + 1) * a.denominator := by gcongr
  · rename_i missed
    constructor
    · rw [value, le_div_iff₀ isPositive]
      calc (2 : ℚ) ^ ((a.numerator.log2 : Int) - a.denominator.log2 - 1) * a.denominator
          ≤ 2 ^ ((a.numerator.log2 : Int) - a.denominator.log2 - 1) *
            2 ^ ((a.denominator.log2 : Int) + 1) := by gcongr
        _ = 2 ^ (a.numerator.log2 : Int) := by
          rw [← zpow_add₀ two_ne_zero]
          congr 1
          omega
        _ ≤ a.numerator := numeratorLow
    · rw [Int.sub_add_cancel]
      exact not_le.mp fun reached =>
        missed ((two_zpow_le_value_iff positive.denominator _).mp reached)

/-- A ratio up to a natural number is rounded to no more than that number. -/
theorem round_le {a : Ratio} (positive : 0 < a.denominator) {bound : Nat}
    (below : a.value ≤ bound) : a.round ≤ bound := by
  have product : a.numerator ≤ bound * a.denominator := by
    rw [value, div_le_iff₀ (Nat.cast_pos.mpr positive)] at below
    exact_mod_cast below
  have quotient : a.numerator / a.denominator ≤ bound :=
    Nat.div_le_of_le_mul (Nat.mul_comm _ _ ▸ product)
  unfold round
  dsimp only
  rcases Nat.lt_or_eq_of_le quotient with less | same
  · split
    · omega
    · split <;> omega
  · -- The bound is reached only without a remainder.
    have split := Nat.div_add_mod a.numerator a.denominator
    rw [same, Nat.mul_comm] at split
    rw [if_pos (by omega)]
    exact same.le

/-- A ratio from a natural number on is rounded to no less than that number. -/
theorem le_round {a : Ratio} (positive : 0 < a.denominator) {bound : Nat}
    (above : bound ≤ a.value) : bound ≤ a.round := by
  have product : bound * a.denominator ≤ a.numerator := by
    rw [value, le_div_iff₀ (Nat.cast_pos.mpr positive)] at above
    exact_mod_cast above
  refine ((Nat.le_div_iff_mul_le positive).mpr product).trans ?_
  unfold round
  dsimp only
  split
  · exact le_rfl
  · split
    · exact Nat.le_succ _
    · exact Nat.le_add_right _ _

end Ratio

/-! ## Words -/

namespace Format

/-- The word of a magnitude. -/
def wordOf (format : Format) (significand : Nat) (scale : Int) : Nat :=
  (scale - format.leastScale).toNat * format.binade + significand

/-- The significand and the scale of a magnitude of the format: the significand uses all bits,
unless the scale is the least. -/
structure IsMagnitude (format : Format) (significand : Nat) (scale : Int) : Prop where
  inRange : format.leastScale ≤ scale
  limited : significand < 2 * format.binade
  full : format.binade ≤ significand ∨ scale = format.leastScale

variable {format : Format} {significand otherSignificand : Nat} {scale otherScale : Int}

/-- Above the least scale, a significand uses all bits. -/
theorem IsMagnitude.full_of_lt (magnitude : format.IsMagnitude significand scale)
    (above : otherScale < scale) (inRange : format.leastScale ≤ otherScale) :
    format.binade ≤ significand := by
  rcases magnitude.full with full | least
  · exact full
  · omega

/-- The greater of two words stands for the greater magnitude. -/
theorem value_le_of_wordOf_le (magnitude : format.IsMagnitude significand scale)
    (other : format.IsMagnitude otherSignificand otherScale)
    (words : format.wordOf significand scale ≤ format.wordOf otherSignificand otherScale) :
    (significand : ℚ) * 2 ^ scale ≤ otherSignificand * 2 ^ otherScale := by
  unfold wordOf at words
  rcases lt_trichotomy scale otherScale with less | same | greater
  · -- A smaller scale outweighs any significand.
    have full := other.full_of_lt less magnitude.inRange
    have significands : (significand : ℚ) ≤ 2 * otherSignificand := by
      exact_mod_cast (magnitude.limited.le.trans (Nat.mul_le_mul_left 2 full))
    calc (significand : ℚ) * 2 ^ scale ≤ 2 * otherSignificand * 2 ^ scale := by gcongr
      _ = otherSignificand * 2 ^ (1 + scale) := by
        rw [zpow_add₀ two_ne_zero, zpow_one]
        ring
      _ ≤ otherSignificand * 2 ^ otherScale := by
        have powers : (2 : ℚ) ^ (1 + scale) ≤ 2 ^ otherScale :=
          zpow_le_zpow_right₀ one_le_two (by omega)
        gcongr
  · subst same
    have significands : (significand : ℚ) ≤ otherSignificand :=
      Nat.cast_le.mpr (Nat.le_of_add_le_add_left words)
    gcongr
  · have full := magnitude.full_of_lt greater other.inRange
    have limited := other.limited
    have inRange := other.inRange
    have steps : (otherScale - format.leastScale).toNat + 1 ≤
        (scale - format.leastScale).toNat := by
      omega
    have scaled := Nat.mul_le_mul_right format.binade steps
    rw [Nat.add_mul, Nat.one_mul] at scaled
    omega

/-! ## Rounding -/

theorem value_binade (some : 0 < format.precision) :
    (format.binade : ℚ) = 2 ^ ((format.precision : Int) - 1) := by
  have exponent : (format.precision : Int) - 1 = (format.precision - 1 : Nat) := by omega
  rw [exponent, zpow_natCast, binade]
  exact_mod_cast rfl

/-- The quotient by a power of two, rounded, keeps a bound on the quotient. -/
theorem round_div_le {a : Ratio} (positive : a.Positive) {scale : Int} {bound : Nat}
    (below : a.value ≤ bound * 2 ^ scale) : (a.div (Ratio.scaled 1 scale)).round ≤ bound := by
  have unit := Ratio.positive_scaled Nat.one_pos scale
  apply Ratio.round_le (Nat.mul_pos positive.denominator unit.numerator)
  rw [Ratio.value_div, Ratio.value_scaled, Nat.cast_one, one_mul, div_le_iff₀ (by positivity)]
  exact below

/-- Likewise, it keeps a bound from below. -/
theorem le_round_div {a : Ratio} (positive : a.Positive) {scale : Int} {bound : Nat}
    (above : bound * 2 ^ scale ≤ a.value) : bound ≤ (a.div (Ratio.scaled 1 scale)).round := by
  have unit := Ratio.positive_scaled Nat.one_pos scale
  apply Ratio.le_round (Nat.mul_pos positive.denominator unit.numerator)
  rw [Ratio.value_div, Ratio.value_scaled, Nat.cast_one, one_mul, le_div_iff₀ (by positivity)]
  exact above

theorem nearest_le_infinity (format : Format) (a : Ratio) :
    format.nearest a ≤ format.infinity := by
  rw [nearest]
  split
  · exact Nat.zero_le _
  · exact Nat.min_le_right _ _

/-- Rounding never passes a magnitude of the format on the way up. -/
theorem nearest_le (some : 0 < format.precision) (magnitude : format.IsMagnitude significand scale)
    {a : Ratio} (positive : a.Positive) (below : a.value ≤ significand * 2 ^ scale) :
    format.nearest a ≤ format.wordOf significand scale := by
  rcases Ratio.le_binaryExponent_and_lt positive with ⟨low, high⟩
  have binade := value_binade some
  have limited := magnitude.limited
  rw [nearest, if_neg positive.numerator.ne']
  dsimp only
  refine (Nat.min_le_left _ _).trans ?_
  generalize isScale :
    max (a.binaryExponent + 1 - (format.precision : Int)) format.leastScale = rounded
  unfold wordOf
  rcases lt_trichotomy rounded scale with less | same | greater
  · -- Below the scale of the bound every significand may occur.
    have full := magnitude.full_of_lt less (by omega)
    have near : a.value ≤ (2 * format.binade : Nat) * 2 ^ rounded := by
      calc a.value ≤ 2 ^ (a.binaryExponent + 1) := high.le
        _ ≤ 2 ^ (1 + ((format.precision : Int) - 1) + rounded) :=
          zpow_le_zpow_right₀ one_le_two (by omega)
        _ = (2 * format.binade : Nat) * 2 ^ rounded := by
          rw [zpow_add₀ two_ne_zero, zpow_add₀ two_ne_zero, zpow_one, ← binade, Nat.cast_mul,
            Nat.cast_ofNat]
    have bounded := round_div_le positive near
    have steps : (rounded - format.leastScale).toNat + 1 ≤ (scale - format.leastScale).toNat := by
      omega
    have scaled := Nat.mul_le_mul_right format.binade steps
    rw [Nat.add_mul, Nat.one_mul] at scaled
    omega
  · subst same
    exact Nat.add_le_add_left (round_div_le positive below) _
  · have inRange := magnitude.inRange
    have impossible : a.value < a.value := by
      calc a.value ≤ significand * 2 ^ scale := below
        _ < (2 * format.binade : Nat) * 2 ^ scale := by gcongr
        _ = 2 ^ (1 + ((format.precision : Int) - 1) + scale) := by
          rw [zpow_add₀ two_ne_zero, zpow_add₀ two_ne_zero, zpow_one, ← binade, Nat.cast_mul,
            Nat.cast_ofNat]
        _ ≤ 2 ^ a.binaryExponent := zpow_le_zpow_right₀ one_le_two (by omega)
        _ ≤ a.value := low
    exact absurd impossible (lt_irrefl _)

/-- Rounding never passes a magnitude of the format on the way down. -/
theorem le_nearest (some : 0 < format.precision) (magnitude : format.IsMagnitude significand scale)
    (finite : format.wordOf significand scale ≤ format.infinity) {a : Ratio}
    (positive : a.Positive) (above : significand * 2 ^ scale ≤ a.value) :
    format.wordOf significand scale ≤ format.nearest a := by
  rcases Ratio.le_binaryExponent_and_lt positive with ⟨low, high⟩
  have binade := value_binade some
  have limited := magnitude.limited
  have inRange := magnitude.inRange
  rw [nearest, if_neg positive.numerator.ne']
  dsimp only
  refine Nat.le_min.mpr ⟨?_, finite⟩
  generalize isScale :
    max (a.binaryExponent + 1 - (format.precision : Int)) format.leastScale = rounded
  unfold wordOf
  rcases lt_trichotomy rounded scale with less | same | greater
  · have full := magnitude.full_of_lt less (by omega)
    have impossible : a.value < a.value := by
      calc a.value < 2 ^ (a.binaryExponent + 1) := high
        _ ≤ 2 ^ (((format.precision : Int) - 1) + scale) :=
          zpow_le_zpow_right₀ one_le_two (by omega)
        _ = format.binade * 2 ^ scale := by rw [zpow_add₀ two_ne_zero, ← binade]
        _ ≤ significand * 2 ^ scale := by gcongr
        _ ≤ a.value := above
    exact absurd impossible (lt_irrefl _)
  · subst same
    exact Nat.add_le_add_left (le_round_div positive above) _
  · -- Above the scale of the bound every significand is full.
    have far : (format.binade : ℚ) * 2 ^ rounded ≤ a.value := by
      calc (format.binade : ℚ) * 2 ^ rounded = 2 ^ (((format.precision : Int) - 1) + rounded) := by
            rw [zpow_add₀ two_ne_zero, ← binade]
        _ ≤ 2 ^ a.binaryExponent := zpow_le_zpow_right₀ one_le_two (by omega)
        _ ≤ a.value := low
    have bounded := le_round_div positive far
    have steps : (scale - format.leastScale).toNat + 1 ≤ (rounded - format.leastScale).toNat := by
      omega
    have scaled := Nat.mul_le_mul_right format.binade steps
    rw [Nat.add_mul, Nat.one_mul] at scaled
    omega

/-! ## Reading -/

/-- Words below that of infinity stand for finite numbers. -/
theorem exists_finite_of_lt {word : Nat} (small : word % format.signBit < format.infinity) :
    ∃ negative significand scale, format.read word = .finite negative significand scale := by
  have below : word % format.signBit / format.binade < format.topField :=
    Nat.div_lt_of_lt_mul (Nat.mul_comm _ _ ▸ small)
  unfold read
  dsimp only
  rw [if_neg below.ne]
  split
  · exact ⟨_, _, _, rfl⟩
  · exact ⟨_, _, _, rfl⟩

/-- Words that stand for finite numbers are below that of infinity. -/
theorem lt_infinity_of_read {word : Nat} {negative : Bool}
    (reading : format.read word = .finite negative significand scale) :
    word % format.signBit < format.infinity := by
  have size : format.signBit = format.binade * (format.topField + 1) := by
    rw [signBit, topField, binade, Nat.sub_add_cancel (Nat.two_pow_pos _), ← Nat.pow_add]
  have field : word % format.signBit / format.binade < format.topField + 1 :=
    Nat.div_lt_of_lt_mul (size ▸ Nat.mod_lt word (Nat.two_pow_pos _))
  have other : word % format.signBit / format.binade ≠ format.topField := by
    intro same
    unfold read at reading
    dsimp only at reading
    rw [if_pos same] at reading
    split at reading <;> cases reading
  have positive : 0 < format.binade := Nat.two_pow_pos _
  exact (Nat.div_lt_iff_lt_mul positive).mp (by omega)

/-- What is read from a word is a magnitude, and the word is its word, apart from the sign. -/
theorem isMagnitude_of_read {word : Nat} {negative : Bool}
    (reading : format.read word = .finite negative significand scale) :
    format.IsMagnitude significand scale ∧
      format.wordOf significand scale = word % format.signBit := by
  have split := Nat.div_add_mod (word % format.signBit) format.binade
  have fraction := Nat.mod_lt (word % format.signBit) (Nat.two_pow_pos (format.precision - 1))
  rw [← binade] at fraction
  unfold read at reading
  dsimp only at reading
  generalize word % format.signBit / format.binade = field at *
  generalize word % format.signBit % format.binade = rest at *
  split at reading
  · split at reading <;> cases reading
  · split at reading
    · rename_i least
      cases reading
      refine ⟨⟨le_rfl, by omega, Or.inr rfl⟩, ?_⟩
      rw [← split, least, wordOf, sub_self, Int.toNat_zero, Nat.zero_mul, Nat.mul_zero]
    · rename_i normal
      cases reading
      refine ⟨⟨by omega, by omega, Or.inl (Nat.le_add_left _ _)⟩, ?_⟩
      rcases Nat.exists_eq_succ_of_ne_zero normal with ⟨steps, same⟩
      have isSteps : (format.leastScale + (field : Int) - 1 - format.leastScale).toNat = steps := by
        omega
      rw [← split, wordOf, isSteps, same, Nat.mul_succ, Nat.mul_comm format.binade, Nat.add_assoc,
        Nat.add_comm rest]

/-- The magnitude of a word is no greater than that of a greater word. -/
theorem value_read_le (magnitude : format.IsMagnitude significand scale) {word : Nat}
    (below : word % format.signBit ≤ format.wordOf significand scale) {negative : Bool}
    (reading : format.read word = .finite negative otherSignificand otherScale) :
    (otherSignificand : ℚ) * 2 ^ otherScale ≤ significand * 2 ^ scale := by
  rcases isMagnitude_of_read reading with ⟨other, isWord⟩
  exact value_le_of_wordOf_le other magnitude (isWord ▸ below)

/-- The magnitude of a word is no less than that of a lesser word. -/
theorem le_value_read (magnitude : format.IsMagnitude significand scale) {word : Nat}
    (above : format.wordOf significand scale ≤ word % format.signBit) {negative : Bool}
    (reading : format.read word = .finite negative otherSignificand otherScale) :
    (significand : ℚ) * 2 ^ scale ≤ otherSignificand * 2 ^ otherScale := by
  rcases isMagnitude_of_read reading with ⟨other, isWord⟩
  exact value_le_of_wordOf_le magnitude other (isWord ▸ above)

end Format
end SchemaRecords.Number
