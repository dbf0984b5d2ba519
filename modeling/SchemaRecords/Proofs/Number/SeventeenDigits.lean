import SchemaRecords.Proofs.Number.RoundingErrors
import SchemaRecords.Proofs.Number.SingleDigits

/-!
# Seventeen digits are enough

The fewest digits of a positive double are at most seventeen, so they never exceed a power of ten
that fits into a word.  A grid of seventeen digits is finer than the steps of the format, and so one
of the two decimals next to a double reads back.

A decimal reads back exactly if it is nearer to the double than to its neighbours, and then rounding
the decimal gives the double.
-/

namespace SchemaRecords.Number

/-- The rational number of a decimal. -/
def Decimal.value (d : Decimal) : ℚ := d.digits * 10 ^ d.exponent

namespace Magnitude

/-! ## The interval around a magnitude -/

/-- Half of the step below a magnitude, measured in the steps of its scale. -/
def reach (x : Magnitude) : ℚ := if x.narrow then 1 / 4 else 1 / 2

/-- A number lies in the interval of those that are rounded to a magnitude, both measured in the
steps of its scale. -/
structure Surrounds (x : Magnitude) (steps : ℚ) : Prop where
  low : x.significand - x.reach ≤ steps
  high : steps ≤ x.significand + 1 / 2
  ties : x.significand - x.reach = steps ∨ steps = x.significand + 1 / 2 →
    x.significand % 2 = 0

theorem compareScaled_eq_gt_iff {a b : Nat} {exponent scale : Int} :
    compareScaled a exponent b scale = .gt ↔ (b : ℚ) * 2 ^ scale < a * 10 ^ exponent := by
  rw [← not_le, ← compareScaled_ne_gt_iff, not_not]

theorem compareScaled_eq_lt_iff {a b : Nat} {exponent scale : Int} :
    compareScaled a exponent b scale = .lt ↔ (a : ℚ) * 10 ^ exponent < b * 2 ^ scale := by
  rw [← not_le, ← compareScaled_ne_lt_iff, not_not]

theorem compareScaled_eq_eq_iff {a b : Nat} {exponent scale : Int} :
    compareScaled a exponent b scale = .eq ↔ (a : ℚ) * 10 ^ exponent = b * 2 ^ scale := by
  have both := le_antisymm_iff (a := (a : ℚ) * 10 ^ exponent) (b := b * 2 ^ scale)
  rw [both, ← compareScaled_ne_gt_iff, ← compareScaled_ne_lt_iff]
  cases compareScaled a exponent b scale <;> decide

/-- A decimal reads back exactly if it lies in the interval. -/
theorem readsBack_iff {x : Magnitude} (some : 0 < x.significand) {d : Decimal} :
    x.readsBack d = true ↔ x.Surrounds (d.value / 2 ^ x.scale) := by
  have power : (0 : ℚ) < 2 ^ x.scale := by positivity
  have quarter : (2 : ℚ) ^ (x.scale - 2) = 2 ^ x.scale / 4 := by
    rw [zpow_sub₀ two_ne_zero]
    norm_num
  have low : ((if x.narrow then 4 * x.significand - 1 else 4 * x.significand - 2 : Nat) : ℚ) *
      2 ^ (x.scale - 2) = (x.significand - x.reach) * 2 ^ x.scale := by
    rw [quarter, reach]
    split
    · rw [Nat.cast_sub (by omega)]
      push_cast
      ring
    · rw [Nat.cast_sub (by omega)]
      push_cast
      ring
  have high : ((4 * x.significand + 2 : Nat) : ℚ) * 2 ^ (x.scale - 2) =
      (x.significand + 1 / 2) * 2 ^ x.scale := by
    rw [quarter]
    push_cast
    ring
  unfold readsBack
  dsimp only
  simp only [Bool.and_eq_true, Bool.or_eq_true, beq_iff_eq, compareScaled_eq_gt_iff,
    compareScaled_eq_lt_iff, compareScaled_eq_eq_iff, low, high]
  rw [← Decimal.value, ← lt_div_iff₀ power, ← div_lt_iff₀ power, ← div_eq_iff power.ne',
    ← div_eq_iff power.ne']
  generalize d.value / 2 ^ x.scale = steps
  constructor
  · rintro ⟨above, below⟩
    refine ⟨?_, ?_, ?_⟩
    · rcases above with greater | ⟨_, same⟩
      · exact greater.le
      · exact same.ge
    · rcases below with less | ⟨_, same⟩
      · exact less.le
      · exact same.le
    · rintro (same | same)
      · exact (above.resolve_left same.not_lt).1
      · exact (below.resolve_left same.not_lt).1
  · rintro ⟨above, below, ties⟩
    constructor
    · rcases above.lt_or_eq with greater | same
      · exact Or.inl greater
      · exact Or.inr ⟨ties (Or.inl same), same.symm⟩
    · rcases below.lt_or_eq with less | same
      · exact Or.inl less
      · exact Or.inr ⟨ties (Or.inr same), same⟩

theorem Surrounds.of_lt {x : Magnitude} {steps : ℚ} (low : x.significand - x.reach < steps)
    (high : steps < x.significand + 1 / 2) : x.Surrounds steps :=
  ⟨low.le, high.le, fun same => same.elim (fun here => absurd here low.ne)
    fun here => absurd here high.ne⟩

theorem reach_pos (x : Magnitude) : 0 < x.reach := by
  rw [reach]
  split <;> norm_num

theorem reach_le (x : Magnitude) : x.reach ≤ 1 / 2 := by
  rw [reach]
  split <;> norm_num

/-- What lies in the interval around a finite magnitude of a format is rounded to it. -/
theorem Surrounds.nearest_eq {format : Format} (some : 0 < format.precision) {significand : Nat}
    {scale : Int} (magnitude : format.IsMagnitude significand scale)
    (finite : format.wordOf significand scale ≤ format.infinity) (positive : 0 < significand)
    {a : Ratio} (surrounds : (ofReading format significand scale).Surrounds (a.value / 2 ^ scale)) :
    format.nearest a = format.wordOf significand scale := by
  have power : (0 : ℚ) < 2 ^ scale := by positivity
  have one : (1 : ℚ) ≤ significand := by exact_mod_cast positive
  have reaches := reach_le (ofReading format significand scale)
  have isReach : (ofReading format significand scale).reach =
      if significand = format.binade ∧ format.leastScale < scale then 1 / 4 else 1 / 2 := by
    simp only [reach, ofReading, decide_eq_true_eq]
  rcases surrounds with ⟨low, high, ties⟩
  rw [show (ofReading format significand scale).significand = significand from rfl]
    at low high ties
  have isPositive : a.Positive := by
    apply Ratio.positive_of_value_pos
    exact (div_pos_iff_of_pos_right power).mp (by linarith)
  by_cases below : (significand = format.binade ∧ format.leastScale < scale) ∧
      a.value < format.binade * 2 ^ scale
  · rcases below with ⟨narrow, less⟩
    rw [isReach, if_pos narrow] at low
    rcases narrow with ⟨same, more⟩
    subst same
    exact Format.nearest_eq_of_lt some more finite low less
  · apply Format.nearest_eq_of_le some magnitude finite isPositive
    · rw [abs_le]
      constructor <;> linarith
    · intro halfway
      apply ties
      rcases (abs_eq (by norm_num)).mp halfway with greater | less
      · exact Or.inl (by linarith)
      · exact Or.inr (by linarith)
    · refine or_iff_not_imp_left.mpr fun other => ?_
      have inRange := magnitude.inRange
      have more : format.leastScale < scale := by omega
      rw [← le_div_iff₀ power]
      rcases (magnitude.full_of_lt more le_rfl).lt_or_eq with greater | same
      · have step : (format.binade : ℚ) + 1 ≤ significand := by exact_mod_cast greater
        linarith
      · rw [le_div_iff₀ power]
        exact not_lt.mp fun less => below ⟨⟨same.symm, more⟩, less⟩

/-! ## The grid of seventeen digits -/

/-- Powers of ten and of two compare as their exponents do with `2 ^ 93` below `10 ^ 28` and
`10 ^ 59` below `2 ^ 196`. -/
theorem ten_zpow_le_two_zpow {tens twos : Int} (above : 93 * tens ≤ 28 * twos)
    (below : 196 * tens ≤ 59 * twos) : (10 : ℚ) ^ tens ≤ 2 ^ twos := by
  have power (base : ℚ) (exponent : Int) (count : Nat) :
      (base ^ exponent) ^ count = base ^ ((count : Int) * exponent) := by
    rw [← zpow_natCast, ← zpow_mul, mul_comm]
  have swap (base : ℚ) (exponent : Int) (count : Nat) :
      (base ^ count) ^ exponent = base ^ ((count : Int) * exponent) := by
    rw [← zpow_natCast, ← zpow_mul]
  rcases le_total 0 twos with positive | negative
  · rw [← pow_le_pow_iff_left₀ (by positivity) (by positivity) (by decide : 196 ≠ 0)]
    calc ((10 : ℚ) ^ tens) ^ 196
        = 10 ^ (196 * tens) := power 10 tens 196
      _ ≤ 10 ^ (59 * twos) := zpow_le_zpow_right₀ (by norm_num) below
      _ = (10 ^ 59) ^ twos := (swap 10 twos 59).symm
      _ ≤ (2 ^ 196) ^ twos := zpow_le_zpow_left₀ positive (by norm_num) (by norm_num)
      _ = 2 ^ (196 * twos) := swap 2 twos 196
      _ = (2 ^ twos) ^ 196 := (power 2 twos 196).symm
  · rw [← pow_le_pow_iff_left₀ (by positivity) (by positivity) (by decide : 93 ≠ 0)]
    calc ((10 : ℚ) ^ tens) ^ 93
        = 10 ^ (93 * tens) := power 10 tens 93
      _ ≤ 10 ^ (28 * twos) := zpow_le_zpow_right₀ (by norm_num) above
      _ = (10 ^ 28) ^ twos := (swap 10 twos 28).symm
      _ ≤ (2 ^ 93) ^ twos := by
        rw [← neg_neg twos, zpow_neg, zpow_neg _ (-twos)]
        apply inv_anti₀ (by positivity)
        exact zpow_le_zpow_left₀ (by omega) (by norm_num) (by norm_num)
      _ = 2 ^ (93 * twos) := swap 2 twos 93
      _ = (2 ^ twos) ^ 93 := (power 2 twos 93).symm

/-- A power of ten on either side of a power of two is found from its exponent. -/
theorem estimate_spec (exponent : Int) (least : -1074 ≤ exponent) (most : exponent ≤ 1023) :
    (10 : ℚ) ^ (exponent * 1233 / 4096 - 1) ≤ 2 ^ exponent ∧
      (2 : ℚ) ^ (exponent + 1) ≤ 10 ^ (exponent * 1233 / 4096 + 3) := by
  constructor
  · exact ten_zpow_le_two_zpow (by omega) (by omega)
  · rw [← inv_le_inv₀ (by positivity) (by positivity), ← zpow_neg, ← zpow_neg]
    exact ten_zpow_le_two_zpow (by omega) (by omega)

/-- A positive magnitude lies between two powers of two. -/
theorem log2_spec {significand : Nat} (positive : 0 < significand) (scale : Int) :
    (2 : ℚ) ^ ((significand.log2 : Int) + scale) ≤ significand * 2 ^ scale ∧
      (significand : ℚ) * 2 ^ scale < 2 ^ ((significand.log2 : Int) + scale + 1) := by
  have low : (2 : ℚ) ^ (significand.log2 : Int) ≤ significand := by
    exact_mod_cast Nat.log2_self_le positive.ne'
  have high : (significand : ℚ) < 2 ^ ((significand.log2 : Int) + 1) := by
    exact_mod_cast Nat.lt_log2_self
  constructor
  · rw [zpow_add₀ two_ne_zero]
    gcongr
  · rw [add_right_comm, zpow_add₀ two_ne_zero]
    gcongr

/-- The decimal scale of a magnitude in the range of the doubles is the least power of ten above
it. -/
theorem decimalScale_spec {x : Magnitude} (positive : 0 < x.significand)
    (least : -1074 ≤ x.scale) (most : (x.significand.log2 : Int) + x.scale ≤ 1023) :
    (10 : ℚ) ^ (x.decimalScale - 1) ≤ x.significand * 2 ^ x.scale ∧
      (x.significand : ℚ) * 2 ^ x.scale < 10 ^ x.decimalScale := by
  rcases log2_spec positive x.scale with ⟨low, high⟩
  rcases estimate_spec ((x.significand.log2 : Int) + x.scale) (by omega) most with
    ⟨lower, upper⟩
  have fits (k : Int) : (compareScaled 1 k x.significand x.scale == .gt) = true ↔
      (x.significand : ℚ) * 2 ^ x.scale < 10 ^ k := by
    rw [beq_iff_eq, compareScaled_eq_gt_iff, Nat.cast_one, one_mul]
  unfold decimalScale
  dsimp only
  generalize ((x.significand.log2 : Int) + x.scale) * 1233 / 4096 = estimate at *
  simp only [fits]
  split_ifs with first second third
  · exact ⟨lower.trans low, first⟩
  · exact ⟨by rw [add_sub_cancel_right]; exact not_lt.mp first, second⟩
  · exact ⟨by rw [add_sub_assoc]; exact not_lt.mp second, third⟩
  · exact ⟨by rw [add_sub_assoc]; exact not_lt.mp third, high.trans_le upper⟩

/-- The greatest decimal with a number of digits that is no greater than the magnitude. -/
def lower (x : Magnitude) (exponent : Int) : Nat :=
  let quotient := (Ratio.scaled x.significand x.scale).div (Ratio.decimal 1 exponent)
  quotient.numerator / quotient.denominator

/-- The two decimals that are tested lie on either side of the magnitude. -/
theorem lower_spec (x : Magnitude) (exponent : Int) :
    (x.lower exponent : ℚ) * 10 ^ exponent ≤ x.significand * 2 ^ x.scale ∧
      (x.significand : ℚ) * 2 ^ x.scale < (x.lower exponent + 1) * 10 ^ exponent := by
  unfold lower
  dsimp only
  generalize isQuotient :
    (Ratio.scaled x.significand x.scale).div (Ratio.decimal 1 exponent) = quotient
  have power : (0 : ℚ) < 10 ^ exponent := by positivity
  have isValue : quotient.value = x.significand * 2 ^ x.scale / 10 ^ exponent := by
    rw [← isQuotient, Ratio.value_div, Ratio.value_scaled, Ratio.value_decimal, Nat.cast_one,
      one_mul]
  have positive : 0 < quotient.denominator := isQuotient ▸
    Nat.mul_pos (Nat.two_pow_pos _) (Ratio.positive_decimal Nat.one_pos exponent).numerator
  have isPositive : (0 : ℚ) < quotient.denominator := Nat.cast_pos.mpr positive
  constructor
  · rw [← le_div_iff₀ power, ← isValue, Ratio.value, le_div_iff₀ isPositive]
    exact_mod_cast Nat.div_mul_le_self _ _
  · rw [← div_lt_iff₀ power, ← isValue, Ratio.value, div_lt_iff₀ isPositive]
    exact_mod_cast (Nat.div_lt_iff_lt_mul positive).mp (Nat.lt_succ_self _)

theorem withDigits?_eq (x : Magnitude) (tie : Tie) (count : Nat) :
    x.withDigits? tie count =
      let exponent := x.decimalScale - (count : Int)
      match x.readsBack ⟨x.lower exponent, exponent⟩,
        x.readsBack ⟨x.lower exponent + 1, exponent⟩ with
      | true, true => some ⟨x.nearer tie (x.lower exponent) exponent, exponent⟩
      | true, false => some ⟨x.lower exponent, exponent⟩
      | false, true => some ⟨x.lower exponent + 1, exponent⟩
      | false, false => none := by
  unfold withDigits? lower
  rfl

/-- What is found has no more than the given number of digits, if there are no more in front of the
least place. -/
theorem digits_le_of_withDigits? {x : Magnitude} {tie : Tie} {count : Nat} {d : Decimal}
    (below : (x.significand : ℚ) * 2 ^ x.scale < 10 ^ x.decimalScale)
    (found : x.withDigits? tie count = some d) : d.digits ≤ 10 ^ count := by
  have power : (0 : ℚ) < 10 ^ (x.decimalScale - (count : Int)) := by positivity
  have small : x.lower (x.decimalScale - count) < 10 ^ count := by
    have less := (x.lower_spec (x.decimalScale - count)).1.trans_lt below
    rw [show x.decimalScale = (count : Int) + (x.decimalScale - count) by omega,
      zpow_add₀ (by norm_num), show (count : Int) + (x.decimalScale - count) - count =
        x.decimalScale - count by omega, mul_lt_mul_iff_left₀ power, zpow_natCast] at less
    exact_mod_cast less
  have near : x.nearer tie (x.lower (x.decimalScale - count)) (x.decimalScale - count) ≤
      x.lower (x.decimalScale - count) + 1 := by
    unfold nearer
    split
    · exact Nat.le_succ _
    · exact le_rfl
    · split
      · exact le_rfl
      · omega
  rw [withDigits?_eq] at found
  dsimp only at found
  split at found <;> cases found
  · exact near.trans small
  · exact small.le
  · exact small

/-- With seventeen digits, one of the two decimals beside a double reads back. -/
theorem exists_withDigits? {x : Magnitude} (positive : 0 < x.significand) (tie : Tie)
    (limited : x.significand < 2 ^ 53)
    (narrow : x.narrow = true → x.significand = 2 ^ 52)
    (above : (10 : ℚ) ^ (x.decimalScale - 1) ≤ x.significand * 2 ^ x.scale) :
    ∃ d, x.withDigits? tie 17 = some d := by
  have power : (0 : ℚ) < 2 ^ x.scale := by positivity
  have reaches := x.reach_le
  have reachesSome := x.reach_pos
  rw [withDigits?_eq]
  dsimp only
  generalize isExponent : x.decimalScale - ((17 : Nat) : Int) = exponent
  -- A step of the grid is shorter than twice the way to the nearer end of the interval.
  have step : (10 : ℚ) ^ exponent / 2 ^ x.scale < 2 * x.reach := by
    have grid : (10 : ℚ) ^ exponent ≤ x.significand * 2 ^ x.scale / 10 ^ 16 := by
      rw [← isExponent, show x.decimalScale - ((17 : Nat) : Int) = x.decimalScale - 1 - 16 by omega,
        zpow_sub₀ (by norm_num)]
      exact div_le_div_of_nonneg_right above (by positivity)
    have scaled : (10 : ℚ) ^ exponent / 2 ^ x.scale ≤ x.significand / 10 ^ 16 := by
      rw [div_le_iff₀ power]
      linarith
    refine scaled.trans_lt ?_
    rw [reach]
    split
    · rename_i isNarrow
      rw [narrow isNarrow]
      norm_num
    · have bounded : (x.significand : ℚ) < 2 ^ 53 := by exact_mod_cast limited
      linarith
  rcases x.lower_spec exponent with ⟨low, high⟩
  have value (n : Nat) : (Decimal.mk n exponent).value / 2 ^ x.scale =
      n * (10 ^ exponent / 2 ^ x.scale) := mul_div_assoc _ _ _
  have low : x.lower exponent * ((10 : ℚ) ^ exponent / 2 ^ x.scale) ≤ x.significand := by
    rw [← mul_div_assoc, div_le_iff₀ power]
    exact low
  have high : (x.significand : ℚ) <
      (x.lower exponent + 1) * (10 ^ exponent / 2 ^ x.scale) := by
    rw [← mul_div_assoc, lt_div_iff₀ power]
    exact high
  have either : x.readsBack ⟨x.lower exponent, exponent⟩ = true ∨
      x.readsBack ⟨x.lower exponent + 1, exponent⟩ = true := by
    rw [readsBack_iff positive, readsBack_iff positive, value, value, Nat.cast_succ]
    rcases lt_or_ge (x.significand - x.reach)
      (x.lower exponent * ((10 : ℚ) ^ exponent / 2 ^ x.scale)) with near | far
    · exact Or.inl (.of_lt near (by linarith))
    · exact Or.inr (.of_lt (by linarith) (by linarith))
  cases first : x.readsBack ⟨x.lower exponent, exponent⟩ <;>
    cases second : x.readsBack ⟨x.lower exponent + 1, exponent⟩
  · rw [first, second] at either
    exact absurd either (by decide)
  all_goals exact ⟨_, rfl⟩

/-! ## The fewest digits of a double -/

/-- A finite magnitude of 64 bits in figures. -/
theorem figures_of_isMagnitude {significand : Nat} {scale : Int}
    (magnitude : Format.double.IsMagnitude significand scale)
    (finite : Format.double.wordOf significand scale < Format.double.infinity) :
    -1074 ≤ scale ∧ scale ≤ 971 ∧ significand < 2 ^ 53 := by
  rcases magnitude with ⟨least, limited, full⟩
  simp only [Format.wordOf, Format.infinity, show Format.double.binade = 2 ^ 52 from rfl,
    show Format.double.topField = 2047 from rfl,
    show Format.double.leastScale = -1074 from rfl] at least limited full finite
  omega

/-- The fewest digits of a positive finite double read back, and there are at most seventeen of
them. -/
theorem shortest_spec {significand : Nat} {scale : Int} (positive : 0 < significand)
    (magnitude : Format.double.IsMagnitude significand scale)
    (finite : Format.double.wordOf significand scale < Format.double.infinity) (tie : Tie)
    {d : Decimal} (isShortest : (ofReading .double significand scale).shortest tie = d) :
    (ofReading .double significand scale).readsBack d = true ∧ d.digits ≤ 10 ^ 17 := by
  rcases figures_of_isMagnitude magnitude finite with ⟨least, most, limited⟩
  have narrow : (ofReading .double significand scale).narrow = true → significand = 2 ^ 52 :=
    fun isNarrow => (of_decide_eq_true isNarrow).1
  generalize isMagnitude : ofReading .double significand scale = x at *
  have isSignificand : x.significand = significand := isMagnitude ▸ rfl
  have isScale : x.scale = scale := isMagnitude ▸ rfl
  have bits : significand.log2 < 53 := (Nat.log2_lt positive.ne').mpr limited
  subst isSignificand isScale
  rcases decimalScale_spec positive least (by omega) with ⟨above, below⟩
  rcases exists_withDigits? positive tie limited narrow above with ⟨last, found⟩
  unfold shortest at isShortest
  cases first : (List.range 17).findSome? fun fewer => x.withDigits? tie (fewer + 1) with
  | none =>
    have none := List.findSome?_eq_none_iff.mp first 16 (by decide)
    rw [found] at none
    cases none
  | some other =>
    rw [first, Option.getD_some] at isShortest
    subst isShortest
    rcases List.exists_of_findSome?_eq_some first with ⟨fewer, member, here⟩
    have few := List.mem_range.mp member
    exact ⟨readsBack_of_withDigits? here, (digits_le_of_withDigits? below here).trans
      (Nat.pow_le_pow_right (by decide) (by omega))⟩

end Magnitude

/-- Trailing zeros are worth nothing. -/
theorem Decimal.stripZeros_spec (limit : Nat) (d : Decimal) :
    (d.stripZeros limit).value = d.value ∧ (d.stripZeros limit).digits ≤ d.digits := by
  induction limit generalizing d with
  | zero => exact ⟨rfl, le_rfl⟩
  | succ limit inductionHypothesis =>
    rw [stripZeros]
    split
    · rename_i trailing
      rcases inductionHypothesis ⟨d.digits / 10, d.exponent + 1⟩ with ⟨same, fewer⟩
      refine ⟨?_, fewer.trans (Nat.div_le_self _ _)⟩
      have whole : ((d.digits / 10 : Nat) : ℚ) * 10 = d.digits := by
        exact_mod_cast Nat.div_mul_cancel (Nat.dvd_of_mod_eq_zero trailing.2)
      rw [same, value, value, zpow_add_one₀ (by norm_num), ← whole]
      ring
    · exact ⟨rfl, le_rfl⟩

/-- The digits that are shown of a positive finite double lie in the interval around it. -/
theorem Double.surrounds_shortest {x : Double} {negative : Bool} {significand : Nat} {scale : Int}
    (reading : x.reading = .finite negative significand scale) (positive : 0 < significand)
    (tie : Tie) :
    (Magnitude.ofReading .double significand scale).Surrounds
        ((x.shortest tie).value / 2 ^ scale) ∧
      (x.shortest tie).digits ≤ 10 ^ 17 := by
  rcases Format.isMagnitude_of_read reading with ⟨magnitude, isWord⟩
  have finite := isWord ▸ Format.lt_infinity_of_read reading
  rcases Magnitude.shortest_spec positive magnitude finite tie rfl with ⟨reads, few⟩
  rw [shortest, reading]
  dsimp only
  rw [if_neg positive.ne']
  rcases Decimal.stripZeros_spec 17 ((Magnitude.ofReading .double significand scale).shortest tie)
    with ⟨same, fewer⟩
  refine ⟨?_, fewer.trans few⟩
  rw [same]
  exact (Magnitude.readsBack_iff positive).mp reads

end SchemaRecords.Number
