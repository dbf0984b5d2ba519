import Mathlib.Tactic.LinearCombination
import SchemaRecords.Proofs.Number.Rounding

/-!
# Errors of rounding

A ratio that is not too great is rounded to a magnitude of the format, and the error is at most
half a step: a small part of the ratio, or half of the least positive magnitude.  Whatever lies
closer to one magnitude than to any other is rounded to that one, and halfway between two of them
the even significand decides.
-/

namespace SchemaRecords.Number

/-! ## Rounding to natural numbers -/

namespace Ratio

theorem value_mul (a b : Ratio) : (a.mul b).value = a.value * b.value := by
  simp only [value, mul, Nat.cast_mul]
  exact mul_div_mul_comm _ _ _ _

theorem value_nonneg (a : Ratio) : 0 ≤ a.value :=
  div_nonneg (Nat.cast_nonneg _) (Nat.cast_nonneg _)

/-- A ratio with a value that is not zero is positive. -/
theorem positive_of_value_pos {a : Ratio} (some : 0 < a.value) : a.Positive := by
  constructor
  · apply Nat.pos_of_ne_zero
    intro zero
    rw [value, zero, Nat.cast_zero, zero_div] at some
    exact lt_irrefl _ some
  · apply Nat.pos_of_ne_zero
    intro zero
    rw [value, zero, Nat.cast_zero, div_zero] at some
    exact lt_irrefl _ some

/-- Twice the error of rounding is no more than a step, and it is a step only at an even number. -/
theorem round_spec {a : Ratio} (positive : 0 < a.denominator) :
    2 * (a.round * a.denominator) ≤ 2 * a.numerator + a.denominator ∧
      2 * a.numerator ≤ 2 * (a.round * a.denominator) + a.denominator ∧
      (2 * (a.round * a.denominator) = 2 * a.numerator + a.denominator ∨
        2 * a.numerator = 2 * (a.round * a.denominator) + a.denominator → a.round % 2 = 0) := by
  have split := Nat.div_add_mod a.numerator a.denominator
  have remainder := Nat.mod_lt a.numerator positive
  rw [Nat.mul_comm] at split
  unfold round
  dsimp only
  generalize a.numerator / a.denominator = quotient at *
  rcases Nat.mod_two_eq_zero_or_one quotient with even | odd
  · simp only [even, Nat.add_zero]
    split_ifs
    · omega
    · rw [Nat.add_mul]
      omega
    · omega
  · rw [odd]
    split_ifs
    · omega
    · rw [Nat.add_mul]
      omega
    · rw [Nat.add_mul]
      omega

/-- Rounding is off by no more than a half. -/
theorem abs_round_sub_value_le {a : Ratio} (positive : 0 < a.denominator) :
    |(a.round : ℚ) - a.value| ≤ 1 / 2 := by
  have isPositive : (0 : ℚ) < a.denominator := Nat.cast_pos.mpr positive
  have isValue : a.value * a.denominator = a.numerator := div_mul_cancel₀ _ isPositive.ne'
  rcases round_spec positive with ⟨above, below, _⟩
  have above : (2 : ℚ) * (a.round * a.denominator) ≤ 2 * a.numerator + a.denominator := by
    exact_mod_cast above
  have below : (2 : ℚ) * a.numerator ≤ 2 * (a.round * a.denominator) + a.denominator := by
    exact_mod_cast below
  rw [abs_le]
  constructor <;> nlinarith

/-- Rounding is off by a half only at an even number. -/
theorem even_round {a : Ratio} (positive : 0 < a.denominator)
    (halfway : |(a.round : ℚ) - a.value| = 1 / 2) : a.round % 2 = 0 := by
  have isPositive : (0 : ℚ) < a.denominator := Nat.cast_pos.mpr positive
  have isValue : a.value * a.denominator = a.numerator := div_mul_cancel₀ _ isPositive.ne'
  apply (round_spec positive).2.2
  rcases (abs_eq (by norm_num)).mp halfway with greater | less
  · left
    have scaled : (2 : ℚ) * (a.round * a.denominator) = 2 * a.numerator + a.denominator := by
      rw [← isValue]
      linear_combination 2 * (a.denominator : ℚ) * greater
    exact_mod_cast scaled
  · right
    have scaled : (2 : ℚ) * a.numerator = 2 * (a.round * a.denominator) + a.denominator := by
      rw [← isValue]
      linear_combination -2 * (a.denominator : ℚ) * less
    exact_mod_cast scaled

/-- What lies within a half of a natural number is rounded to it; at a half the number has to be
even. -/
theorem round_eq {a : Ratio} (positive : 0 < a.denominator) {n : Nat}
    (close : |(n : ℚ) - a.value| ≤ 1 / 2) (ties : |(n : ℚ) - a.value| = 1 / 2 → n % 2 = 0) :
    a.round = n := by
  have rounded := abs_round_sub_value_le positive
  rw [abs_le] at rounded close
  -- Two numbers within a half of the ratio are neighbours, and then both would be even.
  have notLess : ¬ a.round < n := by
    intro less
    have step : (a.round : ℚ) + 1 ≤ n := by exact_mod_cast less
    have isHalf : (n : ℚ) - a.value = 1 / 2 := by linarith
    have isOther : (a.round : ℚ) - a.value = -(1 / 2) := by linarith
    have even := ties (by rw [isHalf]; norm_num)
    have alsoEven := even_round positive (by rw [isOther]; norm_num)
    have next : (a.round : ℚ) + 1 = n := by linarith
    have next : a.round + 1 = n := by exact_mod_cast next
    omega
  have notGreater : ¬ n < a.round := by
    intro greater
    have step : (n : ℚ) + 1 ≤ a.round := by exact_mod_cast greater
    have isHalf : (n : ℚ) - a.value = -(1 / 2) := by linarith
    have isOther : (a.round : ℚ) - a.value = 1 / 2 := by linarith
    have even := ties (by rw [isHalf]; norm_num)
    have alsoEven := even_round positive (by rw [isOther]; norm_num)
    have next : (n : ℚ) + 1 = a.round := by linarith
    have next : n + 1 = a.round := by exact_mod_cast next
    omega
  omega

end Ratio

/-! ## Rounding to a format -/

namespace Format

variable {format : Format} {significand : Nat} {scale : Int}

theorem isMagnitude_zero (format : Format) : format.IsMagnitude 0 format.leastScale :=
  ⟨le_rfl, Nat.mul_pos Nat.two_pos (Nat.two_pow_pos _), Or.inr rfl⟩

/-- A bound by a significand that just uses all bits is a bound by a power of two. -/
theorem binade_mul_eq (some : 0 < format.precision) (scale : Int) :
    (format.binade : ℚ) * 2 ^ scale = 2 ^ ((format.precision : Int) - 1 + scale) := by
  rw [value_binade some, ← zpow_add₀ two_ne_zero]

/-- A magnitude that has grown by one step is a magnitude again, and so is its word. -/
theorem exists_isMagnitude (inRange : format.leastScale ≤ scale)
    (limited : significand ≤ 2 * format.binade)
    (full : format.binade ≤ significand ∨ scale = format.leastScale) :
    ∃ m q, format.IsMagnitude m q ∧ (m : ℚ) * 2 ^ q = significand * 2 ^ scale ∧
      format.wordOf m q = format.wordOf significand scale := by
  rcases Nat.lt_or_eq_of_le limited with less | carried
  · exact ⟨significand, scale, ⟨inRange, less, full⟩, rfl, rfl⟩
  · have positive : 0 < format.binade := Nat.two_pow_pos _
    refine ⟨format.binade, scale + 1, ⟨by omega, by omega, Or.inl le_rfl⟩, ?_, ?_⟩
    · rw [carried, zpow_add₀ two_ne_zero, zpow_one, Nat.cast_mul, Nat.cast_ofNat]
      ring
    · have next : (scale + 1 - format.leastScale).toNat =
          (scale - format.leastScale).toNat + 1 := by omega
      rw [wordOf, wordOf, next, carried]
      ring

/-- A half in the quotient is half a step of the scale by which was divided. -/
theorem abs_mul_sub_le {quotient : Nat} {value : ℚ} {scale : Int}
    (close : |(quotient : ℚ) - value / 2 ^ scale| ≤ 1 / 2) :
    |(quotient : ℚ) * 2 ^ scale - value| ≤ 2 ^ (scale - 1) := by
  have power : (0 : ℚ) < 2 ^ scale := by positivity
  have factored : (quotient : ℚ) * 2 ^ scale - value =
      (quotient - value / 2 ^ scale) * 2 ^ scale := by field_simp
  rw [factored, abs_mul, abs_of_pos power, zpow_sub_one₀ two_ne_zero]
  linarith [mul_le_mul_of_nonneg_right close power.le]

/-- Half a step is small beside the value, or it is half the least step. -/
theorem half_step_le {value : ℚ} {exponent leastScale : Int} {precision : Nat}
    (low : (2 : ℚ) ^ exponent ≤ value) :
    (2 : ℚ) ^ (max (exponent + 1 - (precision : Int)) leastScale - 1) ≤
      max (value * 2 ^ (-(precision : Int))) (2 ^ (leastScale - 1)) := by
  rcases max_choice (exponent + 1 - (precision : Int)) leastScale with free | least
  · apply le_max_of_le_left
    rw [free]
    calc (2 : ℚ) ^ (exponent + 1 - (precision : Int) - 1)
        = 2 ^ exponent * 2 ^ (-(precision : Int)) := by
          rw [← zpow_add₀ two_ne_zero]
          congr 1
          omega
      _ ≤ value * 2 ^ (-(precision : Int)) := by gcongr
  · apply le_max_of_le_right
    rw [least]

/-- A ratio is rounded to the word of a magnitude beside it, unless that is beyond everything.  The
error is at most half a step. -/
theorem exists_nearest (some : 0 < format.precision) {a : Ratio} (positive : 0 < a.denominator) :
    ∃ m q, format.IsMagnitude m q ∧
      format.nearest a = min (format.wordOf m q) format.infinity ∧
      |(m : ℚ) * 2 ^ q - a.value| ≤
        max (a.value * 2 ^ (-(format.precision : Int))) (2 ^ (format.leastScale - 1)) := by
  by_cases zero : a.numerator = 0
  · refine ⟨0, format.leastScale, format.isMagnitude_zero, ?_, ?_⟩
    · rw [nearest, if_pos zero, wordOf, sub_self, Int.toNat_zero, Nat.zero_mul, Nat.zero_add,
        Nat.zero_min]
    · rw [Ratio.value, zero, Nat.cast_zero, zero_div, zero_mul, sub_zero, abs_zero]
      exact le_max_of_le_left (by rw [zero_mul])
  have isPositive : a.Positive := ⟨Nat.pos_of_ne_zero zero, positive⟩
  rcases Ratio.le_binaryExponent_and_lt isPositive with ⟨low, high⟩
  rw [nearest, if_neg zero]
  dsimp only
  generalize isScale :
    max (a.binaryExponent + 1 - (format.precision : Int)) format.leastScale = rounded
  have unit := Ratio.positive_scaled Nat.one_pos rounded
  have divided : 0 < (a.div (Ratio.scaled 1 rounded)).denominator :=
    Nat.mul_pos positive unit.numerator
  have close := Ratio.abs_round_sub_value_le divided
  have limited : (a.div (Ratio.scaled 1 rounded)).round ≤ 2 * format.binade := by
    apply round_div_le isPositive
    calc a.value ≤ 2 ^ (a.binaryExponent + 1) := high.le
      _ ≤ 2 ^ (1 + ((format.precision : Int) - 1 + rounded)) :=
        zpow_le_zpow_right₀ one_le_two (by omega)
      _ = (2 * format.binade : Nat) * 2 ^ rounded := by
        rw [zpow_add₀ two_ne_zero 1, zpow_one, ← binade_mul_eq some, Nat.cast_mul, Nat.cast_ofNat,
          mul_assoc]
  have full : format.binade ≤ (a.div (Ratio.scaled 1 rounded)).round ∨
      rounded = format.leastScale := by
    refine or_iff_not_imp_right.mpr fun above => le_round_div isPositive ?_
    calc (format.binade : ℚ) * 2 ^ rounded = 2 ^ ((format.precision : Int) - 1 + rounded) :=
          binade_mul_eq some rounded
      _ ≤ 2 ^ a.binaryExponent := zpow_le_zpow_right₀ one_le_two (by omega)
      _ ≤ a.value := low
  rw [Ratio.value_div, Ratio.value_scaled, Nat.cast_one, one_mul] at close
  generalize (a.div (Ratio.scaled 1 rounded)).round = quotient at *
  rcases exists_isMagnitude (by omega) limited full with ⟨m, q, magnitude, same, isWord⟩
  refine ⟨m, q, magnitude, by rw [isWord]; rfl, ?_⟩
  rw [same]
  exact (abs_mul_sub_le close).trans (isScale ▸ half_step_le low)

/-! ## Rounding to a given magnitude -/

/-- The scale to which a ratio is rounded, by powers of two around it. -/
theorem binaryExponent_eq {a : Ratio} (positive : a.Positive) {exponent : Int}
    (low : (2 : ℚ) ^ exponent ≤ a.value) (high : a.value < 2 ^ (exponent + 1)) :
    a.binaryExponent = exponent := by
  rcases Ratio.le_binaryExponent_and_lt positive with ⟨reached, missed⟩
  have notLess := (zpow_lt_zpow_iff_right₀ (one_lt_two (α := ℚ))).mp (low.trans_lt missed)
  have notGreater := (zpow_lt_zpow_iff_right₀ (one_lt_two (α := ℚ))).mp (reached.trans_lt high)
  omega

/-- What lies within half a step of a magnitude is rounded to it, unless the step below is half as
great. -/
theorem nearest_eq_of_le (some : 0 < format.precision)
    (magnitude : format.IsMagnitude significand scale)
    (finite : format.wordOf significand scale ≤ format.infinity) {a : Ratio} (positive : a.Positive)
    (close : |(significand : ℚ) - a.value / 2 ^ scale| ≤ 1 / 2)
    (ties : |(significand : ℚ) - a.value / 2 ^ scale| = 1 / 2 → significand % 2 = 0)
    (above : scale = format.leastScale ∨ (format.binade : ℚ) * 2 ^ scale ≤ a.value) :
    format.nearest a = format.wordOf significand scale := by
  have power : (0 : ℚ) < 2 ^ scale := by positivity
  have unit := Ratio.positive_scaled Nat.one_pos scale
  have upper : a.value < 2 ^ ((format.precision : Int) + scale) := by
    have limited : (significand : ℚ) + 1 ≤ 2 * format.binade := by
      exact_mod_cast magnitude.limited
    have bounded : a.value / 2 ^ scale < 2 * format.binade := by
      linarith [(abs_le.mp close).1]
    calc a.value < 2 * format.binade * 2 ^ scale := (div_lt_iff₀ power).mp bounded
      _ = 2 ^ (1 + ((format.precision : Int) - 1 + scale)) := by
        rw [mul_assoc, binade_mul_eq some, zpow_add₀ two_ne_zero 1, zpow_one]
      _ = 2 ^ ((format.precision : Int) + scale) := by congr 1; omega
  have isScale : max (a.binaryExponent + 1 - (format.precision : Int)) format.leastScale =
      scale := by
    rcases above with least | reached
    · rcases Ratio.le_binaryExponent_and_lt positive with ⟨low, _⟩
      have small := (zpow_lt_zpow_iff_right₀ (one_lt_two (α := ℚ))).mp (low.trans_lt upper)
      omega
    · rw [binade_mul_eq some] at reached
      have next : (format.precision : Int) - 1 + scale + 1 = (format.precision : Int) + scale := by
        omega
      rw [binaryExponent_eq positive reached (by rw [next]; exact upper)]
      have inRange := magnitude.inRange
      omega
  have rounded : (a.div (Ratio.scaled 1 scale)).round = significand := by
    apply Ratio.round_eq (Nat.mul_pos positive.denominator unit.numerator)
    · rwa [Ratio.value_div, Ratio.value_scaled, Nat.cast_one, one_mul]
    · rwa [Ratio.value_div, Ratio.value_scaled, Nat.cast_one, one_mul]
  rw [nearest, if_neg positive.numerator.ne']
  dsimp only
  rw [isScale, rounded]
  exact Nat.min_eq_left finite

/-- Where the step below a magnitude is half as great, half of that step still leads to it. -/
theorem nearest_eq_of_lt (some : 0 < format.precision)
    (more : format.leastScale < scale)
    (finite : format.wordOf format.binade scale ≤ format.infinity) {a : Ratio}
    (close : (format.binade : ℚ) - 1 / 4 ≤ a.value / 2 ^ scale)
    (below : a.value < format.binade * 2 ^ scale) :
    format.nearest a = format.wordOf format.binade scale := by
  have power : (0 : ℚ) < 2 ^ scale := by positivity
  have binade : (1 : ℚ) ≤ format.binade := by exact_mod_cast Nat.two_pow_pos _
  have reached := (le_div_iff₀ power).mp close
  have lower : (2 : ℚ) ^ ((format.precision : Int) - 2 + scale) ≤ a.value := by
    calc (2 : ℚ) ^ ((format.precision : Int) - 2 + scale)
        = 2 ^ ((format.precision : Int) - 1 + scale - 1) := by congr 1; omega
      _ = format.binade * 2 ^ scale / 2 := by
        rw [zpow_sub_one₀ two_ne_zero, ← binade_mul_eq some, div_eq_mul_inv]
      _ ≤ (format.binade - 1 / 4) * 2 ^ scale := by nlinarith
      _ ≤ a.value := reached
  have positive : a.Positive := Ratio.positive_of_value_pos (lt_of_lt_of_le (by positivity) lower)
  have next : (format.precision : Int) - 2 + scale + 1 = (format.precision : Int) - 1 + scale := by
    omega
  have isScale : max (a.binaryExponent + 1 - (format.precision : Int)) format.leastScale =
      scale - 1 := by
    rw [binaryExponent_eq positive lower (by rwa [next, ← binade_mul_eq some])]
    omega
  have unit := Ratio.positive_scaled Nat.one_pos (scale - 1)
  have rounded : (a.div (Ratio.scaled 1 (scale - 1))).round = 2 * format.binade := by
    have finer : a.value / 2 ^ (scale - 1) = 2 * (a.value / 2 ^ scale) := by
      rw [zpow_sub_one₀ two_ne_zero]
      field_simp
    have less := (div_lt_iff₀ power).mpr below
    apply Ratio.round_eq (Nat.mul_pos positive.denominator unit.numerator)
    · rw [Ratio.value_div, Ratio.value_scaled, Nat.cast_one, one_mul, finer, Nat.cast_mul,
        Nat.cast_ofNat, abs_le]
      constructor <;> linarith
    · exact fun _ => Nat.mul_mod_right _ _
  rw [nearest, if_neg positive.numerator.ne']
  dsimp only
  have word : (scale - 1 - format.leastScale).toNat * format.binade + 2 * format.binade =
      format.wordOf format.binade scale := by
    have steps : (scale - format.leastScale).toNat = (scale - 1 - format.leastScale).toNat + 1 := by
      omega
    rw [wordOf, steps]
    ring
  rw [isScale, rounded, word]
  exact Nat.min_eq_left finite

/-- A magnitude of the format is rounded to itself. -/
theorem nearest_eq_of_value_eq (some : 0 < format.precision)
    (magnitude : format.IsMagnitude significand scale)
    (finite : format.wordOf significand scale ≤ format.infinity) {a : Ratio} (positive : a.Positive)
    (same : a.value = significand * 2 ^ scale) :
    format.nearest a = format.wordOf significand scale :=
  Nat.le_antisymm (nearest_le some magnitude positive same.le)
    (le_nearest some magnitude finite positive same.ge)

/-! ## Words and magnitudes -/

/-- A magnitude is the only one of its word. -/
theorem wordOf_injective {otherSignificand : Nat} {otherScale : Int}
    (magnitude : format.IsMagnitude significand scale)
    (other : format.IsMagnitude otherSignificand otherScale)
    (same : format.wordOf significand scale = format.wordOf otherSignificand otherScale) :
    significand = otherSignificand ∧ scale = otherScale := by
  have notLess {m n : Nat} {p q : Int} (first : format.IsMagnitude m p)
      (second : format.IsMagnitude n q) (same : format.wordOf m p = format.wordOf n q) :
      ¬ p < q := by
    intro less
    have full := second.full_of_lt less first.inRange
    have limited := first.limited
    have inRange := first.inRange
    have steps : (p - format.leastScale).toNat + 1 ≤ (q - format.leastScale).toNat := by omega
    have scaled := Nat.mul_le_mul_right format.binade steps
    rw [Nat.add_mul, Nat.one_mul] at scaled
    rw [wordOf, wordOf] at same
    omega
  have scales : scale = otherScale := by
    have first := notLess magnitude other same
    have second := notLess other magnitude same.symm
    omega
  subst scales
  rw [wordOf, wordOf] at same
  omega

/-- The sign that is read is the top bit. -/
theorem sign_of_read {word : Nat} {negative : Bool}
    (reading : format.read word = .finite negative significand scale) :
    negative = decide (format.signBit ≤ word) := by
  unfold read at reading
  dsimp only at reading
  split_ifs at reading <;> cases reading <;> rfl

theorem infinity_lt_signBit (format : Format) : format.infinity < format.signBit := by
  rw [infinity, signBit, topField, binade, Nat.pow_add, Nat.mul_comm]
  exact Nat.mul_lt_mul_of_pos_left (Nat.sub_lt (Nat.two_pow_pos _) Nat.one_pos) (Nat.two_pow_pos _)

/-- The word of a finite magnitude with a sign is read as that magnitude with that sign. -/
theorem read_wordOf (magnitude : format.IsMagnitude significand scale)
    (finite : format.wordOf significand scale < format.infinity) (negative : Bool) :
    format.read (if negative then format.wordOf significand scale + format.signBit
      else format.wordOf significand scale) = .finite negative significand scale := by
  have less := finite.trans format.infinity_lt_signBit
  generalize isWord : (if negative then format.wordOf significand scale + format.signBit
    else format.wordOf significand scale) = word
  have isSmall : word % format.signBit = format.wordOf significand scale ∧
      decide (format.signBit ≤ word) = negative := by
    subst isWord
    cases negative
    · exact ⟨Nat.mod_eq_of_lt less, decide_eq_false (Nat.not_le.mpr less)⟩
    · exact ⟨(Nat.add_mod_right _ _).trans (Nat.mod_eq_of_lt less),
        decide_eq_true (Nat.le_add_left _ _)⟩
  rcases isSmall with ⟨small, isSign⟩
  rcases exists_finite_of_lt (small ▸ finite) with ⟨sign, m, q, reading⟩
  rcases isMagnitude_of_read reading with ⟨isMagnitude, sameWord⟩
  rcases wordOf_injective isMagnitude magnitude (sameWord.trans small) with
    ⟨isSignificand, isScale⟩
  rw [reading, isSignificand, isScale, sign_of_read reading, isSign]

end Format
end SchemaRecords.Number
