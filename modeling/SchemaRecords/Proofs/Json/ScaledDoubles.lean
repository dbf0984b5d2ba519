import SchemaRecords.Json.Reader
import SchemaRecords.Proofs.Number.RoundingErrors
import SchemaRecords.Proofs.Number.SingleDigits

/-!
# Errors of scaling

The digits of a number that is read are rounded to a double, and so is the power of ten, and so is
their product or quotient.  Each time the error is relative, except below the least power of two
that has all bits: there it is half of the least positive double.

Where nothing but the last step rounds, the number is the nearest one.  This is the case for digits
that a double holds exactly, and for powers of ten up to the twenty-second.
-/

namespace SchemaRecords.Number

/-- The greatest relative error of rounding. -/
def roundingError : ℚ := 1 / 2 ^ 53

/-- Half of the least positive double, which is the greatest absolute error of rounding to a number
that has not all bits. -/
def leastHalf : ℚ := 2 ^ (-1075 : Int)

/-- The greatest finite double. -/
def greatestDouble : ℚ := (2 ^ 53 - 1 : Nat) * 2 ^ (971 : Int)

theorem pow_le_greatestDouble {exponent : Nat} (small : exponent ≤ 308) :
    (10 : ℚ) ^ exponent ≤ greatestDouble := by
  have large : Magnitude.compareScaled 1 308 (2 ^ 53 - 1) 971 ≠ .gt := by decide +kernel
  rw [Magnitude.compareScaled_ne_gt_iff, Nat.cast_one, one_mul] at large
  refine le_trans ?_ large
  rw [← zpow_natCast]
  exact zpow_le_zpow_right₀ (by norm_num) (by omega)

theorem leastHalf_le {exponent : Int} (above : -1075 ≤ exponent) : leastHalf ≤ 2 ^ exponent :=
  zpow_le_zpow_right₀ one_le_two above

/-- A number is another one, up to a relative and an absolute error. -/
def Within (relative absolute a exactly : ℚ) : Prop :=
  |a - exactly| ≤ relative * exactly + absolute

namespace Within

variable {relative absolute other a b first second : ℚ}

theorem mul (left : Within relative 0 a first) (right : Within other 0 b second)
    (nonneg : 0 ≤ relative) (first_nonneg : 0 ≤ first) (second_nonneg : 0 ≤ second) :
    Within (relative + other + relative * other) 0 (a * b) (first * second) := by
  unfold Within at *
  rw [add_zero] at *
  calc |a * b - first * second| = |(a - first) * (b - second) + (a - first) * second +
        first * (b - second)| := by congr 1; ring
    _ ≤ |a - first| * |b - second| + |a - first| * second + first * |b - second| := by
      refine (abs_add_three _ _ _).trans ?_
      rw [abs_mul, abs_mul, abs_mul, abs_of_nonneg first_nonneg, abs_of_nonneg second_nonneg]
    _ ≤ (relative * first) * (other * second) + (relative * first) * second +
        first * (other * second) := by gcongr
    _ = (relative + other + relative * other) * (first * second) := by ring

/-- The errors of a quotient, where the divisor is not far off. -/
theorem div {bound absoluteBound : ℚ} (left : Within relative absolute a first)
    (right : Within other 0 b second) (first_nonneg : 0 ≤ first) (second_pos : 0 < second)
    (less : other < 1) (bound_nonneg : 0 ≤ bound) (isBound : relative + other ≤ bound * (1 - other))
    (absolute_nonneg : 0 ≤ absoluteBound)
    (isAbsoluteBound : absolute ≤ absoluteBound * (second * (1 - other))) :
    Within bound absoluteBound (a / b) (first / second) := by
  unfold Within at *
  rw [add_zero] at right
  have low : second * (1 - other) ≤ b := by linarith [(abs_le.mp right).1]
  have b_pos : 0 < b := (mul_pos second_pos (by linarith)).trans_le low
  have product_pos : 0 < b * second := mul_pos b_pos second_pos
  rw [div_sub_div _ _ b_pos.ne' second_pos.ne', abs_div, abs_of_pos product_pos,
    div_le_iff₀ product_pos]
  calc |a * second - b * first| = |(a - first) * second + -(first * (b - second))| := by
        congr 1; ring
    _ ≤ |a - first| * second + first * |b - second| := by
      refine (abs_add_le _ _).trans ?_
      rw [abs_neg, abs_mul, abs_mul, abs_of_nonneg first_nonneg, abs_of_pos second_pos]
    _ ≤ (relative * first + absolute) * second + first * (other * second) := by gcongr
    _ = (relative + other) * (first * second) + absolute * second := by ring
    _ ≤ bound * (1 - other) * (first * second) + absoluteBound * (second * (1 - other)) * second :=
      by gcongr
    _ = (bound * first + absoluteBound * second) * (second * (1 - other)) := by ring
    _ ≤ (bound * first + absoluteBound * second) * b := by gcongr
    _ = (bound * (first / second) + absoluteBound) * (b * second) := by
      field_simp

/-- One more rounding. -/
theorem round {y : ℚ} (before : Within relative absolute a first)
    (rounded : |y - a| ≤ max (roundingError * a) leastHalf) :
    |y - first| ≤ relative * first + absolute +
      max (roundingError * (first + (relative * first + absolute))) leastHalf := by
  unfold Within at before
  have high : a ≤ first + (relative * first + absolute) := by linarith [(abs_le.mp before).2]
  have error : roundingError * a ≤ roundingError * (first + (relative * first + absolute)) :=
    mul_le_mul_of_nonneg_left high (by norm_num [roundingError])
  calc |y - first| ≤ |y - a| + |a - first| := abs_sub_le y a first
    _ ≤ _ := by linarith [rounded.trans (max_le_max_right leastHalf error)]

end Within

/-! ## Rounded doubles -/

namespace Double

/-- The magnitude of a double. -/
def magnitude (x : Double) : ℚ := x.ratio.value

theorem magnitude_of_reading {x : Double} {negative : Bool} {significand : Nat} {scale : Int}
    (reading : x.reading = .finite negative significand scale) :
    x.magnitude = significand * 2 ^ scale := by
  rw [magnitude, ratio, reading]
  exact Ratio.value_scaled significand scale

theorem denominator_ratio_pos (x : Double) : 0 < x.ratio.denominator := by
  rw [ratio]
  split
  · exact Nat.two_pow_pos _
  · exact Nat.one_pos

/-- The double of a finite magnitude with a sign is read as that magnitude. -/
theorem reading_ofMagnitude {significand : Nat} {scale : Int}
    (magnitude : Format.double.IsMagnitude significand scale)
    (finite : Format.double.wordOf significand scale < Format.double.infinity) (negative : Bool) :
    (ofMagnitude negative (Format.double.wordOf significand scale)).reading =
      .finite negative significand scale := by
  have room : Format.double.infinity + Format.double.signBit < 2 ^ 64 := by decide
  rw [reading, ofMagnitude, UInt64.toNat_ofNat', Nat.mod_eq_of_lt (by split <;> omega)]
  exact Format.read_wordOf magnitude finite negative

theorem isMagnitude_greatestDouble : Format.double.IsMagnitude (2 ^ 53 - 1) 971 :=
  ⟨by decide, by decide, Or.inl (by decide)⟩

theorem nearest_lt_infinity {a : Ratio} (positive : 0 < a.denominator)
    (small : a.value ≤ greatestDouble) : Format.double.nearest a < Format.double.infinity := by
  by_cases zero : a.numerator = 0
  · rw [Format.nearest, if_pos zero]
    decide
  · exact (Format.nearest_le (by decide) isMagnitude_greatestDouble
      ⟨Nat.pos_of_ne_zero zero, positive⟩ small).trans_lt (by decide)

/-- A double was rounded from a number: it is finite, and no further off than half a step. -/
structure RoundedFrom (x : Double) (exactly : ℚ) : Prop where
  finite : ∃ significand scale, x.reading = .finite false significand scale
  close : |x.magnitude - exactly| ≤ max (roundingError * exactly) leastHalf

/-- What is not beyond the greatest double is rounded to a finite one. -/
theorem roundedFrom_ofRatio {a : Ratio} (positive : 0 < a.denominator)
    (small : a.value ≤ greatestDouble) : (ofRatio false a).RoundedFrom a.value := by
  have precise : 0 < Format.double.precision := by decide
  rcases Format.exists_nearest precise positive with
    ⟨significand, scale, isMagnitude, isWord, error⟩
  have bounded := nearest_lt_infinity positive small
  have finite : Format.double.wordOf significand scale < Format.double.infinity := by
    rw [isWord] at bounded
    omega
  rw [Nat.min_eq_left finite.le] at isWord
  have reading : (ofRatio false a).reading = .finite false significand scale := by
    rw [ofRatio, isWord]
    exact reading_ofMagnitude isMagnitude finite false
  refine ⟨⟨_, _, reading⟩, ?_⟩
  have relative : a.value * 2 ^ (-(Format.double.precision : Int)) = roundingError * a.value := by
    rw [roundingError, show Format.double.precision = 53 from rfl, zpow_neg, mul_comm]
    norm_num
  rw [magnitude_of_reading reading]
  rwa [relative] at error

theorem RoundedFrom.within {x : Double} {exactly : ℚ} (rounded : x.RoundedFrom exactly)
    (nonneg : 0 ≤ exactly) : Within roundingError leastHalf x.magnitude exactly := by
  have relative : 0 ≤ roundingError * exactly :=
    mul_nonneg (by norm_num [roundingError]) nonneg
  have absolute : 0 ≤ leastHalf := by unfold leastHalf; positivity
  exact rounded.close.trans (max_le (by linarith) (by linarith))

/-- From one on, the error is relative. -/
theorem RoundedFrom.within_of_one_le {x : Double} {exactly : ℚ} (rounded : x.RoundedFrom exactly)
    (one_le : 1 ≤ exactly) : Within roundingError 0 x.magnitude exactly := by
  have least : leastHalf ≤ roundingError :=
    (leastHalf_le (by decide : -1075 ≤ (-53 : Int))).trans_eq (by norm_num [roundingError])
  have positive : 0 ≤ roundingError := by norm_num [roundingError]
  have bounded : leastHalf ≤ roundingError * exactly := by nlinarith
  have error := rounded.close
  rw [max_eq_left bounded] at error
  rwa [Within, add_zero]

end Double

/-! ## Digits and powers of ten -/

open Json

theorem roundedFrom_natural {n : Nat} (small : n ≤ greatestDouble) :
    (Double.ofRatio false ⟨n, 1⟩).RoundedFrom n := by
  have same : (Ratio.mk n 1).value = n := by rw [Ratio.value, Nat.cast_one, div_one]
  have rounded := Double.roundedFrom_ofRatio Nat.one_pos (same.trans_le small)
  rwa [same] at rounded

theorem ofInt_natCast (n : Nat) : Double.ofInt n = Double.ofRatio false ⟨n, 1⟩ := by
  rw [Double.ofInt, decide_eq_false (by omega), Int.natAbs_natCast]

/-- The digits that are gathered, as a double. -/
theorem within_ofInt {n : Nat} (one_le : 1 ≤ n) (few : n ≤ 10 ^ 17) :
    Within roundingError 0 (Double.ofInt n).magnitude n := by
  have small : (n : ℚ) ≤ greatestDouble := by
    have bounded : (n : ℚ) ≤ 10 ^ 17 := by exact_mod_cast few
    exact bounded.trans (pow_le_greatestDouble (by decide))
  rw [ofInt_natCast]
  exact (roundedFrom_natural small).within_of_one_le (by exact_mod_cast one_le)

/-- A power of ten, as a double. -/
theorem within_powerOfTen {exponent : Nat} (small : exponent ≤ 308) :
    Within roundingError 0 (powerOfTen exponent).magnitude (10 ^ exponent) := by
  have bounded := pow_le_greatestDouble small
  have rounded : (powerOfTen exponent).RoundedFrom ((10 ^ exponent : Nat) : ℚ) :=
    roundedFrom_natural (by exact_mod_cast bounded)
  rw [Nat.cast_pow] at rounded
  exact rounded.within_of_one_le (one_le_pow₀ (by norm_num))

/-- The greatest power of ten is rounded by a tenth of what rounding may be off. -/
theorem within_powerOfTen_greatest :
    Within (roundingError / 10) 0 (powerOfTen 308).magnitude (10 ^ 308) := by
  have reading : (powerOfTen 308).reading = .finite false 5010420900022432 971 := by
    decide +kernel
  have low : Magnitude.compareScaled (10 * 2 ^ 53 - 1) 308 (5010420900022432 * (10 * 2 ^ 53)) 971 ≠
      .gt := by decide +kernel
  have high : Magnitude.compareScaled (10 * 2 ^ 53 + 1) 308 (5010420900022432 * (10 * 2 ^ 53)) 971 ≠
      .lt := by decide +kernel
  rw [Magnitude.compareScaled_ne_gt_iff] at low
  rw [Magnitude.compareScaled_ne_lt_iff] at high
  have power : ((10 : ℚ) ^ (308 : Int)) = 10 ^ 308 := zpow_natCast 10 308
  rw [power] at low high
  rw [Within, Double.magnitude_of_reading reading, roundingError, add_zero, abs_le]
  generalize (10 : ℚ) ^ 308 = ten at *
  generalize (2 : ℚ) ^ (971 : Int) = two at *
  push_cast at low high ⊢
  constructor <;> linarith

/-- Powers of ten up to the twenty-second are doubles. -/
theorem magnitude_powerOfTen {exponent : Nat} (small : exponent ≤ 22) :
    (powerOfTen exponent).magnitude = 10 ^ exponent := by
  have each : ∀ exponent : Nat, exponent < 23 → (powerOfTen exponent).ratio.numerator =
      10 ^ exponent * (powerOfTen exponent).ratio.denominator := by decide +kernel
  have nonzero : ((powerOfTen exponent).ratio.denominator : ℚ) ≠ 0 :=
    Nat.cast_ne_zero.mpr (powerOfTen exponent).denominator_ratio_pos.ne'
  rw [Double.magnitude, Ratio.value, each exponent (by omega), Nat.cast_mul,
    mul_div_cancel_right₀ _ nonzero, Nat.cast_pow, Nat.cast_ofNat]

/-- A natural number of at most fifty-three bits is a magnitude. -/
theorem exists_isMagnitude_natural {n : Nat} (positive : 0 < n) (small : n ≤ 2 ^ 53) :
    ∃ significand scale, Format.double.IsMagnitude significand scale ∧
      Format.double.wordOf significand scale < Format.double.infinity ∧
      (significand : ℚ) * 2 ^ scale = n := by
  have binade : Format.double.binade = 2 ^ 52 := rfl
  have least : Format.double.leastScale = -1074 := rfl
  rcases small.lt_or_eq with less | same
  · have bits : n.log2 < 53 := (Nat.log2_lt positive.ne').mpr less
    have low := Nat.log2_self_le positive.ne'
    have high : n < 2 ^ (n.log2 + 1) := Nat.lt_log2_self
    have full : 2 ^ 52 ≤ n * 2 ^ (52 - n.log2) := by
      calc 2 ^ 52 = 2 ^ n.log2 * 2 ^ (52 - n.log2) := by rw [← Nat.pow_add]; congr 1; omega
        _ ≤ n * 2 ^ (52 - n.log2) := Nat.mul_le_mul_right _ low
    have limited : n * 2 ^ (52 - n.log2) < 2 ^ 53 := by
      calc n * 2 ^ (52 - n.log2) < 2 ^ (n.log2 + 1) * 2 ^ (52 - n.log2) :=
            Nat.mul_lt_mul_of_pos_right high (Nat.two_pow_pos _)
        _ = 2 ^ 53 := by rw [← Nat.pow_add]; congr 1; omega
    refine ⟨n * 2 ^ (52 - n.log2), -((52 - n.log2 : Nat) : Int), ⟨by omega, by omega, Or.inl full⟩,
      ?_, ?_⟩
    · rw [Format.wordOf, binade, least, show Format.double.infinity = 2047 * 2 ^ 52 from rfl]
      omega
    · rw [Nat.cast_mul, Nat.cast_pow, Nat.cast_ofNat, zpow_neg, zpow_natCast,
        mul_inv_cancel_right₀ (by positivity)]
  · refine ⟨2 ^ 52, 1, ⟨by decide, by decide, Or.inl (by decide)⟩, by decide, ?_⟩
    rw [same]
    norm_num

/-- Digits of at most fifty-three bits are a double. -/
theorem magnitude_ofInt {n : Nat} (positive : 0 < n) (small : n ≤ 2 ^ 53) :
    (Double.ofInt n).magnitude = n := by
  rcases exists_isMagnitude_natural positive small with
    ⟨significand, scale, magnitude, finite, same⟩
  have value : (Ratio.mk n 1).value = significand * 2 ^ scale := by
    rw [Ratio.value, Nat.cast_one, div_one, same]
  have isWord := Format.nearest_eq_of_value_eq (by decide) magnitude finite.le
    ⟨positive, Nat.one_pos⟩ value
  rw [ofInt_natCast, Double.ofRatio, isWord,
    Double.magnitude_of_reading (Double.reading_ofMagnitude magnitude finite false), same]

/-! ## Products and quotients -/

/-- A double that digits and a power of ten were scaled to: it is finite, and no further off than
all roundings together. -/
structure ScaledFrom (y : Double) (exactly : ℚ) : Prop where
  finite : ∃ significand scale, y.reading = .finite false significand scale
  close : |y.magnitude - exactly| ≤ 9 / 4 * roundingError * exactly + leastHalf / 5 +
    max (101 / 100 * roundingError * exactly) leastHalf

theorem roundingError_pos : 0 < roundingError := by norm_num [roundingError]

theorem leastHalf_pos : 0 < leastHalf := by
  unfold leastHalf
  positivity

theorem roundedFrom_mul {x y : Double} (small : x.magnitude * y.magnitude ≤ greatestDouble) :
    (Double.ofRatio false (x.ratio.mul y.ratio)).RoundedFrom (x.magnitude * y.magnitude) := by
  have value : (x.ratio.mul y.ratio).value = x.magnitude * y.magnitude := Ratio.value_mul _ _
  rw [← value] at small ⊢
  exact Double.roundedFrom_ofRatio
    (Nat.mul_pos x.denominator_ratio_pos y.denominator_ratio_pos) small

theorem roundedFrom_quotient {x y : Double} (positive : 0 < y.magnitude)
    (small : x.magnitude / y.magnitude ≤ greatestDouble) :
    (quotient x y).RoundedFrom (x.magnitude / y.magnitude) := by
  have value : (x.ratio.div y.ratio).value = x.magnitude / y.magnitude := Ratio.value_div _ _
  rw [← value] at small ⊢
  exact Double.roundedFrom_ofRatio (Nat.mul_pos x.denominator_ratio_pos
    (Ratio.positive_of_value_pos positive).numerator) small

/-- What is rounded once more is scaled, if the errors before are small. -/
theorem ScaledFrom.of_within {y : Double} {a exactly relative absolute : ℚ}
    (rounded : y.RoundedFrom a) (before : Within relative absolute a exactly)
    (nonneg : 0 ≤ exactly) (isRelative : relative * exactly + absolute ≤
      9 / 4 * roundingError * exactly + leastHalf / 6)
    (isSmall : relative ≤ 1 / 200) (isTiny : absolute ≤ leastHalf) : ScaledFrom y exactly := by
  refine ⟨rounded.finite, (before.round rounded.close).trans ?_⟩
  have tiny : roundingError ≤ 1 / 100 := by norm_num [roundingError]
  have positive := roundingError_pos
  have least := leastHalf_pos
  -- The last rounding meets a number that is off by the errors before.
  have last : roundingError * (exactly + (relative * exactly + absolute)) ≤
      101 / 100 * roundingError * exactly + leastHalf / 100 := by
    have growth : relative * exactly ≤ 1 / 200 * exactly := by gcongr
    calc roundingError * (exactly + (relative * exactly + absolute))
        ≤ roundingError * (exactly + (1 / 200 * exactly + leastHalf)) := by gcongr
      _ = 201 / 200 * (roundingError * exactly) + roundingError * leastHalf := by ring
      _ ≤ 101 / 100 * roundingError * exactly + leastHalf / 100 := by
        linarith [mul_nonneg positive.le nonneg, mul_le_mul_of_nonneg_right tiny least.le]
  have most : max (roundingError * (exactly + (relative * exactly + absolute))) leastHalf ≤
      max (101 / 100 * roundingError * exactly) leastHalf + leastHalf / 100 := by
    apply max_le
    · exact last.trans (by linarith [le_max_left (101 / 100 * roundingError * exactly) leastHalf])
    · linarith [le_max_right (101 / 100 * roundingError * exactly) leastHalf]
  linarith

/-- Digits are multiplied by a power of ten. -/
theorem exists_scale?_natural {digits exponent : Nat} (one_le : 1 ≤ digits)
    (few : digits ≤ 10 ^ 17) (small : exponent ≤ 308)
    (bounded : (1 + 9 / 4 * roundingError) * (digits * 10 ^ exponent) ≤ greatestDouble) :
    ∃ y, scale? digits exponent = some y ∧ ScaledFrom y (digits * 10 ^ exponent) := by
  have isDigits := within_ofInt one_le few
  have isPower := within_powerOfTen small
  have nonneg : (0 : ℚ) ≤ digits * 10 ^ exponent := by positivity
  have product := isDigits.mul isPower roundingError_pos.le (Nat.cast_nonneg _) (by positivity)
  have errors : roundingError + roundingError + roundingError * roundingError ≤
      9 / 4 * roundingError := by norm_num [roundingError]
  have most : (Double.ofInt digits).magnitude * (powerOfTen exponent).magnitude ≤
      greatestDouble := by
    have high := (abs_le.mp product).2
    have scaled := mul_le_mul_of_nonneg_right errors nonneg
    linarith
  have rounded := roundedFrom_mul most
  have scaled : ScaledFrom _ _ := .of_within rounded product nonneg
    (by linarith [mul_le_mul_of_nonneg_right errors nonneg, leastHalf_pos])
    (errors.trans (by norm_num [roundingError])) leastHalf_pos.le
  refine ⟨_, ?_, scaled⟩
  have finite : (Double.ofRatio false ((Double.ofInt digits).ratio.mul
      (powerOfTen exponent).ratio)).isFinite = true := by
    rcases rounded.finite with ⟨_, _, reading⟩
    rw [Double.isFinite, reading]
  unfold scale?
  dsimp only
  rw [if_neg (by omega), if_pos (by omega), Int.natAbs_natCast, if_pos finite]

/-- A quotient by a power of ten is not beyond the greatest double. -/
theorem div_le_greatestDouble {a b : ℚ} (nonneg : 0 ≤ a) (few : a ≤ 2 * 10 ^ 17)
    (many : 1 / 2 ≤ b) : a / b ≤ greatestDouble := by
  have positive : 0 < b := by linarith
  calc a / b ≤ a / (1 / 2) := by gcongr
    _ ≤ 10 ^ 18 := by linarith
    _ ≤ greatestDouble := pow_le_greatestDouble (by decide)

theorem half_le_powerOfTen {exponent : Nat} (small : exponent ≤ 308) :
    1 / 2 ≤ (powerOfTen exponent).magnitude := by
  have low := (abs_le.mp (within_powerOfTen small)).1
  have one_le : (1 : ℚ) ≤ 10 ^ exponent := one_le_pow₀ (by norm_num)
  have half : roundingError ≤ 1 / 2 := by norm_num [roundingError]
  nlinarith

theorem ofInt_le {digits : Nat} (one_le : 1 ≤ digits) (few : digits ≤ 10 ^ 17) :
    (Double.ofInt digits).magnitude ≤ 2 * 10 ^ 17 := by
  have high := (abs_le.mp (within_ofInt one_le few)).2
  have most : (digits : ℚ) ≤ 10 ^ 17 := by exact_mod_cast few
  have half : roundingError ≤ 1 := by norm_num [roundingError]
  nlinarith

theorem ofInt_ne_zero {digits : Nat} (one_le : 1 ≤ digits) (few : digits ≤ 10 ^ 17) :
    Double.ofInt digits ≠ .zero := by
  intro zero
  have low := (abs_le.mp (within_ofInt one_le few)).1
  have isZero : (Double.ofInt digits).magnitude = 0 := by
    rw [zero, Double.magnitude_of_reading (by decide : Double.zero.reading = .finite false 0 (-1074)),
      Nat.cast_zero, zero_mul]
  have some : (1 : ℚ) ≤ digits := by exact_mod_cast one_le
  have half : roundingError ≤ 1 / 2 := by norm_num [roundingError]
  rw [isZero] at low
  nlinarith

theorem Double.magnitude_nonneg (x : Double) : 0 ≤ x.magnitude := x.ratio.value_nonneg

/-- Digits are divided by a power of ten. -/
theorem scaledFrom_scaleDown {digits places : Nat} (one_le : 1 ≤ digits)
    (few : digits ≤ 10 ^ 17) (small : places ≤ 308) :
    ScaledFrom (scaleDown (Double.ofInt digits) places) (digits / 10 ^ places) := by
  have nonneg : (0 : ℚ) ≤ digits / 10 ^ places := by positivity
  have divided : Within (9 / 4 * roundingError) 0
      ((Double.ofInt digits).magnitude / (powerOfTen places).magnitude) (digits / 10 ^ places) :=
    (within_ofInt one_le few).div (within_powerOfTen small) (Nat.cast_nonneg _) (by positivity)
      (by norm_num [roundingError]) (by norm_num [roundingError]) (by norm_num [roundingError])
      le_rfl (by rw [zero_mul])
  have positive : 0 < (powerOfTen places).magnitude := by linarith [half_le_powerOfTen small]
  have rounded := roundedFrom_quotient positive
    (div_le_greatestDouble (Double.magnitude_nonneg _) (ofInt_le one_le few)
      (half_le_powerOfTen small))
  rw [scaleDown, if_pos small]
  exact .of_within rounded divided nonneg (by linarith [leastHalf_pos])
    (by norm_num [roundingError]) leastHalf_pos.le

/-- Far below the least double with all bits, the relative errors are nothing. -/
theorem roundingError_mul_le {digits places : Nat} (few : digits ≤ 10 ^ 17) (many : 331 ≤ places) :
    roundingError * (digits / 10 ^ places) ≤ leastHalf / 32 := by
  have tiny : (digits : ℚ) / 10 ^ places ≤ 2 ^ (-1027 : Int) := by
    have powers : Magnitude.compareScaled 1 (-314) 1 (-1027) ≠ .gt := by decide +kernel
    rw [Magnitude.compareScaled_ne_gt_iff, Nat.cast_one, one_mul, one_mul] at powers
    have most : (digits : ℚ) ≤ 10 ^ (17 : Int) := by exact_mod_cast few
    calc (digits : ℚ) / 10 ^ places ≤ 10 ^ (17 : Int) / 10 ^ (331 : Int) := by
          rw [← zpow_natCast 10 places]
          have more : (10 : ℚ) ^ (331 : Int) ≤ 10 ^ (places : Int) :=
            zpow_le_zpow_right₀ (by norm_num) (by omega)
          gcongr
      _ = 10 ^ (-314 : Int) := by rw [← zpow_sub₀ (by norm_num)]; rfl
      _ ≤ 2 ^ (-1027 : Int) := powers
  calc roundingError * (digits / 10 ^ places) ≤ roundingError * 2 ^ (-1027 : Int) :=
        mul_le_mul_of_nonneg_left tiny roundingError_pos.le
    _ = 2 ^ (-53 : Int) * 2 ^ (-1027 : Int) := by rw [roundingError]; norm_num
    _ = 2 ^ (-1075 : Int) * 2 ^ (-5 : Int) := by
      rw [← zpow_add₀ two_ne_zero, ← zpow_add₀ two_ne_zero]
      rfl
    _ = leastHalf / 32 := by
      rw [← leastHalf, show (2 : ℚ) ^ (-5 : Int) = 1 / 32 by norm_num, mul_one_div]

/-- The greatest power of ten is the first divisor of two. -/
theorem within_quotient_greatest {digits : Nat} (one_le : 1 ≤ digits) (few : digits ≤ 10 ^ 17) :
    Within (53 / 25 * roundingError) leastHalf
      (quotient (Double.ofInt digits) (powerOfTen 308)).magnitude (digits / 10 ^ 308) := by
  have nonneg : (0 : ℚ) ≤ digits / 10 ^ 308 := by positivity
  have divided : Within (111 / 100 * roundingError) 0
      ((Double.ofInt digits).magnitude / (powerOfTen 308).magnitude) (digits / 10 ^ 308) :=
    (within_ofInt one_le few).div within_powerOfTen_greatest (Nat.cast_nonneg _) (by positivity)
      (by norm_num [roundingError]) (by norm_num [roundingError]) (by norm_num [roundingError])
      le_rfl (by rw [zero_mul])
  have half := half_le_powerOfTen (le_refl 308)
  have rounded := roundedFrom_quotient (by linarith)
    (div_le_greatestDouble (Double.magnitude_nonneg _) (ofInt_le one_le few) half)
  refine (divided.round rounded.close).trans ?_
  generalize (digits : ℚ) / 10 ^ 308 = exactly at nonneg
  have last : roundingError * (exactly + (111 / 100 * roundingError * exactly + 0)) ≤
      101 / 100 * roundingError * exactly := by
    have error : roundingError * (1 + 111 / 100 * roundingError) ≤ 101 / 100 * roundingError := by
      norm_num [roundingError]
    linarith [mul_le_mul_of_nonneg_right error nonneg]
  have least := leastHalf_pos
  have small := mul_nonneg roundingError_pos.le nonneg
  have most : max (roundingError * (exactly + (111 / 100 * roundingError * exactly + 0)))
      leastHalf ≤ 101 / 100 * roundingError * exactly + leastHalf :=
    max_le (by linarith) (by linarith)
  linarith

/-- Below the greatest power of ten, digits are divided twice.  The second power is exact, unless
the number is so small that no relative error matters. -/
theorem scaledFrom_scaleDown_twice {digits places : Nat} (one_le : 1 ≤ digits)
    (few : digits ≤ 10 ^ 17) (many : 308 < places) (small : places ≤ 616) :
    ScaledFrom (scaleDown (Double.ofInt digits) places) (digits / 10 ^ places) := by
  have nonneg : (0 : ℚ) ≤ digits / 10 ^ places := by positivity
  have first := within_quotient_greatest one_le few
  have half := half_le_powerOfTen (show places - 308 ≤ 308 by omega)
  have quotients : (digits : ℚ) / 10 ^ 308 / 10 ^ (places - 308) = digits / 10 ^ places := by
    rw [div_div, ← pow_add, Nat.add_sub_of_le many.le]
  have ten_le : (10 : ℚ) ≤ 10 ^ (places - 308) := le_self_pow₀ (by norm_num) (by omega)
  have least := leastHalf_pos
  have few_le : (quotient (Double.ofInt digits) (powerOfTen 308)).magnitude ≤ 2 * 10 ^ 17 := by
    have bounded : (digits : ℚ) / 10 ^ 308 ≤ 10 ^ 17 :=
      (div_le_self (Nat.cast_nonneg _) (one_le_pow₀ (by norm_num))).trans (by exact_mod_cast few)
    have most : leastHalf ≤ 2 ^ (0 : Int) := leastHalf_le (by decide)
    have error : 53 / 25 * roundingError ≤ 1 / 100 := by norm_num [roundingError]
    have high := (abs_le.mp first).2
    have relative := mul_le_mul error bounded (by positivity) (by norm_num)
    rw [zpow_zero] at most
    generalize (digits : ℚ) / 10 ^ 308 = exactly at *
    linarith
  have rounded := roundedFrom_quotient (by linarith)
    (div_le_greatestDouble (Double.magnitude_nonneg _) few_le half)
  have unfolded : scaleDown (Double.ofInt digits) places =
      quotient (quotient (Double.ofInt digits) (powerOfTen 308)) (powerOfTen (places - 308)) := by
    rw [scaleDown, if_neg (by omega), if_neg (ofInt_ne_zero one_le few), scaleDown,
      if_pos (by omega)]
  rw [unfolded]
  by_cases exact : places ≤ 330
  · have isPower : Within 0 0 (powerOfTen (places - 308)).magnitude (10 ^ (places - 308)) := by
      rw [Within, magnitude_powerOfTen (by omega), sub_self, abs_zero, zero_mul, add_zero]
    have divided : Within (53 / 25 * roundingError) (leastHalf / 9) _ _ :=
      first.div isPower (by positivity) (by positivity) (by norm_num) (by norm_num [roundingError])
        (by rw [add_zero, sub_zero, mul_one]) (by linarith) (by nlinarith)
    rw [quotients] at divided
    exact .of_within rounded divided nonneg
      (by linarith [mul_nonneg roundingError_pos.le nonneg]) (by norm_num [roundingError])
      (by linarith)
  · have nine_le : 9 ≤ 10 ^ (places - 308) * (1 - roundingError) := by
      have error : roundingError ≤ 1 / 100 := by norm_num [roundingError]
      nlinarith
    have divided : Within (63 / 20 * roundingError) (leastHalf / 9) _ _ :=
      first.div (within_powerOfTen (show places - 308 ≤ 308 by omega)) (by positivity) (by positivity)
        (by norm_num [roundingError]) (by norm_num [roundingError]) (by norm_num [roundingError])
        (by linarith) (by nlinarith)
    rw [quotients] at divided
    exact .of_within rounded divided nonneg
      (by linarith [roundingError_mul_le few (show 331 ≤ places by omega)])
      (by norm_num [roundingError]) (by linarith)

end SchemaRecords.Number
