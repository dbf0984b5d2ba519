import SchemaRecords.Proofs.Json.ScaledDoubles
import SchemaRecords.Proofs.Json.WrittenDoubles
import SchemaRecords.Proofs.Number.SeventeenDigits
import SchemaRecords.Proofs.Number.WholeDoubles

/-!
# Doubles that were written and read

A finite double is written with enough digits to tell it from all others.  They are read as a finite
double again, with the same sign, but not always as the same one: scaling rounds up to four times.
The result is no more than four steps away, and zero only where zero was written.

It is the same one if its digits fit into fifty-three bits and its power of ten is a double too.
-/

namespace SchemaRecords.Number

/-! ## Signs -/

theorem xor_two_pow_of_lt {word power : Nat} (small : word < 2 ^ power) :
    word ^^^ 2 ^ power = word + 2 ^ power := by
  have disjoint := Nat.two_pow_add_eq_or_of_lt small 1
  rw [Nat.mul_one] at disjoint
  rw [Nat.add_comm, disjoint]
  apply Nat.eq_of_testBit_eq
  intro place
  rw [Nat.testBit_xor, Nat.testBit_or, Nat.testBit_two_pow]
  by_cases same : power = place
  · subst same
    rw [Nat.testBit_lt_two_pow small]
    simp
  · simp [same]

namespace Double

variable {x : Double} {negative : Bool} {significand : Nat} {scale : Int}

/-- A finite double is the word of its magnitude, with its sign. -/
theorem eq_ofMagnitude (reading : x.reading = .finite negative significand scale) :
    x = ofMagnitude negative (Format.double.wordOf significand scale) := by
  have isSign : Format.double.signBit = 2 ^ 63 := rfl
  have small := x.word.toNat_lt
  rcases Format.isMagnitude_of_read reading with ⟨_, isWord⟩
  have sign := Format.sign_of_read reading
  have same : (if negative then Format.double.wordOf significand scale + Format.double.signBit
      else Format.double.wordOf significand scale) = x.word.toNat := by
    rw [isWord, isSign] at *
    by_cases top : 2 ^ 63 ≤ x.word.toNat
    · rw [sign, decide_eq_true top, if_pos rfl]
      omega
    · rw [sign, decide_eq_false top, if_neg Bool.false_ne_true]
      omega
  rw [ofMagnitude, same, UInt64.ofNat_toNat]

theorem isNegative_of_reading (reading : x.reading = .finite negative significand scale) :
    x.isNegative = negative := by
  rw [isNegative, Format.sign_of_read reading]
  congr 1

theorem negate_ofMagnitude {magnitude : Nat} (small : magnitude < Format.double.infinity) :
    (ofMagnitude false magnitude).negate = ofMagnitude true magnitude := by
  have room : Format.double.infinity < 2 ^ 63 := by decide
  have isSign : Format.double.signBit = 2 ^ 63 := rfl
  have isTop : (0x8000000000000000 : UInt64).toNat = 2 ^ 63 := rfl
  have narrow : magnitude < 2 ^ 64 := by omega
  have wide : magnitude + 2 ^ 63 < 2 ^ 64 := by omega
  rw [negate, ofMagnitude, ofMagnitude, if_neg Bool.false_ne_true, if_pos rfl, isSign]
  refine congrArg Double.mk (UInt64.toNat_inj.mp ?_)
  rw [UInt64.toNat_xor, UInt64.toNat_ofNat_of_lt' narrow, UInt64.toNat_ofNat_of_lt' wide, isTop]
  exact xor_two_pow_of_lt (by omega)

end Double
end SchemaRecords.Number

namespace SchemaRecords.Json

open SchemaRecords.Number

/-! ## Gathered digits -/

theorem value_gatheredDecimal (d : Decimal) : (gatheredDecimal d).value = d.value := by
  unfold gatheredDecimal
  split
  · rename_i full
    have natural : d.exponent = (d.exponent.toNat : Int) := by omega
    rw [Decimal.value, Decimal.value, Nat.cast_mul, Nat.cast_pow, Nat.cast_ofNat, zpow_neg_one,
      pow_succ, natural, zpow_natCast, Int.toNat_natCast]
    field_simp
  · rfl

theorem digits_gatheredDecimal_le {d : Decimal} (few : d.digits ≤ 10 ^ 17) :
    (gatheredDecimal d).digits ≤ 10 ^ 17 := by
  unfold gatheredDecimal
  split
  · rename_i full
    exact (digits_mul_pow_lt full.1.2 full.2).le
  · exact few

/-! ## Scaled digits -/

/-- A positive finite double, no more than four steps beside a magnitude. -/
structure RereadFrom (y : Double) (significand : Nat) (scale : Int) : Prop where
  finite : ∃ m q, y.reading = .finite false m q
  positive : 0 < y.magnitude
  close : |y.magnitude - significand * 2 ^ scale| ≤ 4 * 2 ^ scale

section Magnitudes

variable {significand : Nat} {scale : Int} {exactly : ℚ} {y : Double}

/-- The errors of scaling and the distance of the digits are four steps at most. -/
theorem RereadFrom.of_scaledFrom (scaled : ScaledFrom y exactly)
    (low : (significand - 1 / 2 : ℚ) * 2 ^ scale ≤ exactly)
    (high : exactly ≤ (significand + 1 / 2 : ℚ) * 2 ^ scale)
    (several : 2 ≤ significand) (limited : significand < 2 ^ 53) (least : -1074 ≤ scale) :
    RereadFrom y significand scale := by
  have power : (0 : ℚ) < 2 ^ scale := by positivity
  have half : leastHalf ≤ 2 ^ scale / 2 := by
    calc leastHalf ≤ 2 ^ (scale - 1) := leastHalf_le (by omega)
      _ = 2 ^ scale / 2 := zpow_sub_one₀ two_ne_zero scale
  have two_le : (2 : ℚ) ≤ significand := by exact_mod_cast several
  have above : 3 / 2 * 2 ^ scale ≤ exactly := by nlinarith
  -- A relative error is at most a step, and at most a hundredth.
  have step : roundingError * exactly ≤ 2 ^ scale := by
    have bits : (significand : ℚ) + 1 ≤ 2 ^ 53 := by exact_mod_cast limited
    have most : exactly ≤ 2 ^ 53 * 2 ^ scale := by nlinarith
    calc roundingError * exactly ≤ roundingError * (2 ^ 53 * 2 ^ scale) :=
          mul_le_mul_of_nonneg_left most roundingError_pos.le
      _ = 2 ^ scale := by rw [← mul_assoc, roundingError, one_div_mul_cancel (by norm_num), one_mul]
  have part : roundingError * exactly ≤ 1 / 100 * exactly :=
    mul_le_mul_of_nonneg_right (by norm_num [roundingError]) (by linarith)
  have close := scaled.close
  rw [mul_assoc, mul_assoc] at close
  generalize roundingError * exactly = error at *
  refine ⟨scaled.finite, ?_, ?_⟩
  · have most : max (101 / 100 * error) leastHalf ≤ exactly / 3 :=
      max_le (by linarith) (by linarith)
    linarith [(abs_le.mp close).1]
  · have most : max (101 / 100 * error) leastHalf ≤ 101 / 100 * 2 ^ scale :=
      max_le (by linarith) (by linarith)
    have digits : |exactly - significand * 2 ^ scale| ≤ 2 ^ scale / 2 := by
      rw [abs_le]
      constructor <;> linarith
    linarith [abs_sub_le y.magnitude exactly (significand * 2 ^ scale)]

/-- The magnitudes for which the bounds on errors are not sharp enough: the least positive one, and
the three greatest. -/
def extremes : List (Nat × Int) :=
  [(1, -1074), (2 ^ 53 - 1, 971), (2 ^ 53 - 2, 971), (2 ^ 53 - 3, 971)]

/-- The digits that are gathered where a positive magnitude was written. -/
def gatheredOf (significand : Nat) (scale : Int) : Decimal :=
  gatheredDecimal (Decimal.stripZeros 17
    ((Magnitude.ofReading .double significand scale).shortest .toEven))

/-- What is read as a magnitude or as the next one is close to it. -/
theorem RereadFrom.of_reading {m : Nat} (reading : y.reading = .finite false m scale)
    (positive : 0 < m) (near : m = significand ∨ m = significand + 1) :
    RereadFrom y significand scale := by
  have power : (0 : ℚ) < 2 ^ scale := by positivity
  have isMagnitude := Double.magnitude_of_reading reading
  refine ⟨⟨_, _, reading⟩, ?_, ?_⟩
  · rw [isMagnitude]
    exact mul_pos (Nat.cast_pos.mpr positive) power
  · rw [isMagnitude]
    rcases near with same | next
    · rw [same, sub_self, abs_zero]
      positivity
    · rw [next, Nat.cast_succ, add_mul, one_mul, add_sub_cancel_left, abs_of_pos power]
      linarith

/-- Extreme magnitudes are read as themselves or as the next ones. -/
theorem exists_scale?_extreme {extreme : Nat × Int} (member : extreme ∈ extremes) :
    ∃ y, scale? (gatheredOf extreme.1 extreme.2).digits (gatheredOf extreme.1 extreme.2).exponent =
      some y ∧ RereadFrom y extreme.1 extreme.2 := by
  have each : ∀ extreme ∈ extremes, ∃ m ∈ [extreme.1, extreme.1 + 1], 0 < m ∧
      (scale? (gatheredOf extreme.1 extreme.2).digits (gatheredOf extreme.1 extreme.2).exponent).map
        Double.reading = some (.finite false m extreme.2) := by
    decide +kernel
  rcases each extreme member with ⟨m, near, positive, read⟩
  rcases Option.map_eq_some_iff.mp read with ⟨y, scaled, reading⟩
  simp only [List.mem_cons, List.not_mem_nil, or_false] at near
  exact ⟨y, scaled, .of_reading reading positive near⟩

/-- The product of the digits and the power of ten is not beyond the greatest double, unless the
magnitude is extreme. -/
theorem scaled_le_greatestDouble (high : exactly ≤ (significand + 1 / 2 : ℚ) * 2 ^ scale)
    (limited : significand < 2 ^ 53) (most : scale ≤ 971)
    (ordinary : (significand, scale) ∉ extremes) :
    (1 + 9 / 4 * roundingError) * exactly ≤ greatestDouble := by
  have power : (0 : ℚ) < 2 ^ (971 : Int) := by positivity
  have bounded : exactly ≤ (2 ^ 53 - 7 / 2) * 2 ^ (971 : Int) := by
    refine high.trans ?_
    rcases most.lt_or_eq with less | same
    · have bits : (significand : ℚ) + 1 ≤ 2 ^ 53 := by exact_mod_cast limited
      have half : (2 : ℚ) ^ scale ≤ 2 ^ (971 : Int) / 2 := by
        calc (2 : ℚ) ^ scale ≤ 2 ^ (971 - 1 : Int) := zpow_le_zpow_right₀ one_le_two (by omega)
          _ = 2 ^ (971 : Int) / 2 := zpow_sub_one₀ two_ne_zero 971
      calc ((significand : ℚ) + 1 / 2) * 2 ^ scale ≤ 2 ^ 53 * (2 ^ (971 : Int) / 2) :=
            mul_le_mul (by linarith) half (by positivity) (by positivity)
        _ ≤ (2 ^ 53 - 7 / 2) * 2 ^ (971 : Int) := by
          generalize (2 : ℚ) ^ (971 : Int) = step at power
          linarith
    · subst same
      have few : significand + 4 ≤ 2 ^ 53 := by
        simp only [extremes, List.mem_cons, List.not_mem_nil, Prod.mk.injEq, or_false,
          and_true] at ordinary
        omega
      have bits : (significand : ℚ) + 4 ≤ 2 ^ 53 := by exact_mod_cast few
      exact mul_le_mul_of_nonneg_right (by linarith) power.le
  calc (1 + 9 / 4 * roundingError) * exactly
      ≤ (1 + 9 / 4 * roundingError) * ((2 ^ 53 - 7 / 2) * 2 ^ (971 : Int)) :=
        mul_le_mul_of_nonneg_left bounded (by linarith [roundingError_pos])
    _ = (1 + 9 / 4 * roundingError) * (2 ^ 53 - 7 / 2) * 2 ^ (971 : Int) := (mul_assoc _ _ _).symm
    _ ≤ (2 ^ 53 - 1 : Nat) * 2 ^ (971 : Int) :=
        mul_le_mul_of_nonneg_right (by norm_num [roundingError]) power.le
    _ = greatestDouble := rfl

/-- The power of ten of a positive double that is written is in the range of what is scaled. -/
theorem exponent_bounds {d : Decimal} (one_le : 1 ≤ d.digits) (few : d.digits ≤ 10 ^ 17)
    (low : leastHalf ≤ d.value) (high : d.value < 2 ^ (1024 : Int)) :
    -616 ≤ d.exponent ∧ d.exponent ≤ 308 := by
  have power : (0 : ℚ) < 10 ^ d.exponent := by positivity
  constructor
  · by_contra below
    have tiny : Magnitude.compareScaled (10 ^ 17) (-617) 1 (-1075) = .lt := by decide +kernel
    rw [Magnitude.compareScaled_eq_lt_iff, Nat.cast_one, one_mul] at tiny
    have vanishing : d.value ≤ (10 ^ 17 : Nat) * 10 ^ (-617 : Int) := by
      have digits : (d.digits : ℚ) ≤ (10 ^ 17 : Nat) := Nat.cast_le.mpr few
      have powers : (10 : ℚ) ^ d.exponent ≤ 10 ^ (-617 : Int) :=
        zpow_le_zpow_right₀ (by norm_num) (by omega)
      exact mul_le_mul digits powers power.le (by positivity)
    exact absurd (low.trans vanishing) (not_le.mpr tiny)
  · by_contra above
    have huge : Magnitude.compareScaled 1 309 1 1024 ≠ .lt := by decide +kernel
    rw [Magnitude.compareScaled_ne_lt_iff, Nat.cast_one, one_mul, one_mul] at huge
    have overflow : (10 : ℚ) ^ (309 : Int) ≤ d.value := by
      have digits : (1 : ℚ) ≤ d.digits := by exact_mod_cast one_le
      have powers : (10 : ℚ) ^ (309 : Int) ≤ 10 ^ d.exponent :=
        zpow_le_zpow_right₀ (by norm_num) (by omega)
      exact powers.trans (le_mul_of_one_le_left power.le digits)
    exact absurd (huge.trans overflow) (not_le.mpr high)

/-- Digits with a power of ten in range are scaled, if their product is not beyond the greatest
double. -/
theorem exists_scale? {d : Decimal} (one_le : 1 ≤ d.digits) (few : d.digits ≤ 10 ^ 17)
    (least : -616 ≤ d.exponent) (most : d.exponent ≤ 308)
    (bounded : (1 + 9 / 4 * roundingError) * d.value ≤ greatestDouble) :
    ∃ y, scale? d.digits d.exponent = some y ∧ ScaledFrom y d.value := by
  by_cases negative : d.exponent < 0
  · have isValue : d.value = d.digits / 10 ^ d.exponent.natAbs := by
      rw [Decimal.value, show d.exponent = -(d.exponent.natAbs : Int) by omega, zpow_neg,
        zpow_natCast, Int.natAbs_neg, Int.natAbs_natCast, div_eq_mul_inv]
    refine ⟨scaleDown (Double.ofInt d.digits) d.exponent.natAbs, ?_, ?_⟩
    · unfold scale?
      exact if_pos negative
    · rw [isValue]
      rcases Nat.lt_or_ge 308 d.exponent.natAbs with many | small
      · exact scaledFrom_scaleDown_twice one_le few many (by omega)
      · exact scaledFrom_scaleDown one_le few small
  · have same : d.exponent = (d.exponent.toNat : Int) := by omega
    have isValue : d.value = d.digits * 10 ^ d.exponent.toNat := by
      rw [Decimal.value, ← zpow_natCast, ← same]
    rw [isValue] at bounded ⊢
    rw [same]
    exact exists_scale?_natural one_le few (by omega) bounded

theorem shortest_of_reading {x : Double} {negative : Bool}
    (reading : x.reading = .finite negative significand scale) (positive : 0 < significand)
    (tie : Tie) : x.shortest tie = Decimal.stripZeros 17
      ((Magnitude.ofReading .double significand scale).shortest tie) := by
  rw [Double.shortest, reading]
  exact if_neg positive.ne'

/-- The decimal that was written lies no more than half a step beside the magnitude. -/
theorem shortest_bounds {x : Double} {negative : Bool}
    (reading : x.reading = .finite negative significand scale) (positive : 0 < significand)
    (tie : Tie) :
    (significand - 1 / 2 : ℚ) * 2 ^ scale ≤ (x.shortest tie).value ∧
      (x.shortest tie).value ≤ (significand + 1 / 2 : ℚ) * 2 ^ scale := by
  have power : (0 : ℚ) < 2 ^ scale := by positivity
  rcases Double.surrounds_shortest reading positive tie with ⟨⟨low, high, _⟩, _⟩
  have reaches := (Magnitude.ofReading .double significand scale).reach_le
  rw [show (Magnitude.ofReading .double significand scale).significand = significand from rfl]
    at low high
  exact ⟨(le_div_iff₀ power).mp (by linarith), (div_le_iff₀ power).mp high⟩

/-- A positive magnitude is not written as zero. -/
theorem shortest_pos {x : Double} {negative : Bool}
    (reading : x.reading = .finite negative significand scale) (positive : 0 < significand)
    (tie : Tie) : 0 < (x.shortest tie).value := by
  have one_le : (1 : ℚ) ≤ significand := by exact_mod_cast positive
  exact (mul_pos (by linarith) (by positivity)).trans_le (shortest_bounds reading positive tie).1

theorem one_le_digits {d : Decimal} (positive : 0 < d.value) : 1 ≤ d.digits := by
  apply Nat.one_le_iff_ne_zero.mpr
  intro none
  rw [Decimal.value, none, Nat.cast_zero, zero_mul] at positive
  exact lt_irrefl _ positive

/-- A positive magnitude that was written is read as one no more than four steps beside it. -/
theorem exists_rereadFrom {x : Double} {negative : Bool}
    (reading : x.reading = .finite negative significand scale) (positive : 0 < significand) :
    ∃ y, scale? (gatheredDecimal (x.shortest .toEven)).digits
        (gatheredDecimal (x.shortest .toEven)).exponent = some y ∧
      RereadFrom y significand scale := by
  by_cases extreme : (significand, scale) ∈ extremes
  · have here := exists_scale?_extreme extreme
    simp only [gatheredOf] at here
    rwa [shortest_of_reading reading positive]
  · rcases Format.isMagnitude_of_read reading with ⟨magnitude, isWord⟩
    rcases Magnitude.figures_of_isMagnitude magnitude
      (isWord ▸ Format.lt_infinity_of_read reading) with ⟨least, most, limited⟩
    rcases shortest_bounds reading positive .toEven with ⟨low, high⟩
    have few := digits_gatheredDecimal_le (Double.surrounds_shortest reading positive .toEven).2
    rw [← value_gatheredDecimal] at low high
    generalize gatheredDecimal (x.shortest .toEven) = d at *
    have several : 2 ≤ significand := by
      by_contra one
      have same : significand = 1 := by omega
      have isLeast : scale = -1074 := by
        refine magnitude.full.resolve_left ?_
        rw [same]
        decide
      exact extreme (by rw [same, isLeast]; decide)
    have power : (0 : ℚ) < 2 ^ scale := by positivity
    have two_le : (2 : ℚ) ≤ significand := by exact_mod_cast several
    have above : leastHalf ≤ d.value := by
      have step : leastHalf ≤ 2 ^ scale := leastHalf_le (by omega)
      nlinarith
    have below : d.value < 2 ^ (1024 : Int) := by
      have bits : (significand : ℚ) + 1 ≤ 2 ^ 53 := by exact_mod_cast limited
      calc d.value ≤ (significand + 1 / 2 : ℚ) * 2 ^ scale := high
        _ < 2 ^ 53 * 2 ^ scale := mul_lt_mul_of_pos_right (by linarith) power
        _ = 2 ^ (53 + scale) := by
          rw [zpow_add₀ two_ne_zero]
          rfl
        _ ≤ 2 ^ (1024 : Int) := zpow_le_zpow_right₀ one_le_two (by omega)
    have one_le := one_le_digits (leastHalf_pos.trans_le above)
    rcases exponent_bounds one_le few above below with ⟨leastPower, mostPower⟩
    rcases exists_scale? one_le few leastPower mostPower
      (scaled_le_greatestDouble high limited most extreme) with ⟨y, found, scaled⟩
    exact ⟨y, found, .of_scaledFrom scaled low high several limited least⟩

/-- Digits of at most fifty-three bits and a power of ten that is a double are scaled by a single
rounding. -/
theorem exists_scale?_exact {d : Decimal} (one_le : 1 ≤ d.digits) (few : d.digits ≤ 2 ^ 53)
    (least : -22 ≤ d.exponent) (most : d.exponent ≤ 22)
    (magnitude : Format.double.IsMagnitude significand scale)
    (finite : Format.double.wordOf significand scale < Format.double.infinity)
    (positive : 0 < significand)
    (surrounds : (Magnitude.ofReading .double significand scale).Surrounds
      (d.value / 2 ^ scale)) :
    ∃ y, scale? d.digits d.exponent = some y ∧ y.reading = .finite false significand scale := by
  have isDigits := magnitude_ofInt one_le few
  have isPower : (powerOfTen d.exponent.natAbs).magnitude = 10 ^ d.exponent.natAbs :=
    magnitude_powerOfTen (by omega)
  -- The ratio that is rounded is the decimal.
  have exact (a : Ratio) (same : a.value = d.value) :
      (Double.ofRatio false a).reading = .finite false significand scale := by
    have nearest := Magnitude.Surrounds.nearest_eq (by decide) magnitude finite.le positive
      (a := a) (same ▸ surrounds)
    rw [Double.ofRatio, nearest]
    exact Double.reading_ofMagnitude magnitude finite false
  unfold scale?
  dsimp only
  by_cases negative : d.exponent < 0
  · rw [if_pos negative, scaleDown, if_pos (by omega)]
    refine ⟨_, rfl, exact _ ?_⟩
    rw [Ratio.value_div, ← Double.magnitude, ← Double.magnitude, isDigits, isPower, Decimal.value,
      show d.exponent = -(d.exponent.natAbs : Int) by omega, zpow_neg, zpow_natCast,
      Int.natAbs_neg, Int.natAbs_natCast, div_eq_mul_inv]
  · have reading := exact ((Double.ofInt d.digits).ratio.mul
      (powerOfTen d.exponent.natAbs).ratio) (by
        rw [Ratio.value_mul, ← Double.magnitude, ← Double.magnitude, isDigits, isPower,
          Decimal.value, ← zpow_natCast, show (d.exponent.natAbs : Int) = d.exponent by omega])
    rw [if_neg negative, if_pos (by omega), if_pos (by rw [Double.isFinite, reading])]
    exact ⟨_, rfl, reading⟩

end Magnitudes

/-! ## Doubles -/

end SchemaRecords.Json

namespace SchemaRecords.Number.Double

open SchemaRecords.Json

/-- The double that is read where a double was written. -/
def reread (x : Double) : Double :=
  let d := gatheredDecimal (x.shortest .toEven)
  let y := (scale? d.digits d.exponent).getD .zero
  if x.isNegative then y.negate else y

/-- The distance from a finite double to the next one away from zero. -/
def step (x : Double) : ℚ :=
  match x.reading with
  | .finite _ _ scale => 2 ^ scale
  | _ => 0

/-- A finite double stands for another one, with its sign and no more than four steps away. -/
structure StandsFor (y x : Double) : Prop where
  finite : y.isFinite = true
  sign : y.isNegative = x.isNegative
  zero : y.magnitude = 0 ↔ x.magnitude = 0
  close : |y.magnitude - x.magnitude| ≤ 4 * x.step

variable {x : Double} {negative : Bool} {significand : Nat} {scale : Int}

/-- The sign that was written is given back. -/
theorem reading_reread {y : Double} {m : Nat} {q : Int}
    (reading : x.reading = .finite negative significand scale)
    (found : scale? (gatheredDecimal (x.shortest .toEven)).digits
      (gatheredDecimal (x.shortest .toEven)).exponent = some y)
    (isMagnitude : y.reading = .finite false m q) : x.reread.reading = .finite negative m q := by
  rcases Format.isMagnitude_of_read isMagnitude with ⟨magnitude, isWord⟩
  have finite := isWord ▸ Format.lt_infinity_of_read isMagnitude
  unfold reread
  dsimp only
  rw [found, Option.getD_some, isNegative_of_reading reading, eq_ofMagnitude isMagnitude]
  cases negative
  · exact reading_ofMagnitude magnitude finite false
  · rw [if_pos rfl, negate_ofMagnitude finite]
    exact reading_ofMagnitude magnitude finite true

/-- Doubles with the same reading are the same. -/
theorem eq_of_reading {y : Double} (reading : x.reading = .finite negative significand scale)
    (same : y.reading = .finite negative significand scale) : y = x :=
  (eq_ofMagnitude same).trans (eq_ofMagnitude reading).symm

/-- Zeros are written without any digit but zero. -/
theorem shortest_zero (reading : x.reading = .finite negative 0 scale) (tie : Tie) :
    x.shortest tie = ⟨0, 0⟩ := by
  rw [shortest, reading]
  rfl

theorem scale?_zero : scale? (gatheredDecimal ⟨0, 0⟩).digits (gatheredDecimal ⟨0, 0⟩).exponent =
    some .zero := by
  decide +kernel

/-- Both zeros are read as themselves. -/
theorem reread_zero (reading : x.reading = .finite negative 0 scale) : x.reread = x := by
  have isLeast : scale = -1074 :=
    (Format.isMagnitude_of_read reading).1.full.resolve_left (by decide)
  subst isLeast
  exact eq_of_reading reading (reading_reread reading
    (by rw [shortest_zero reading]; exact scale?_zero) (by decide))

theorem step_of_reading (reading : x.reading = .finite negative significand scale) :
    x.step = 2 ^ scale := by
  rw [step, reading]

theorem isFinite_of_reading (reading : x.reading = .finite negative significand scale) :
    x.isFinite = true := by
  rw [isFinite, reading]

theorem exists_reading (finite : x.isFinite = true) :
    ∃ negative significand scale, x.reading = .finite negative significand scale := by
  rw [isFinite] at finite
  split at finite
  · rename_i reading
    exact ⟨_, _, _, reading⟩
  · cases finite

/-- A finite double that was written and read stands for itself. -/
theorem reread_standsFor (finite : x.isFinite = true) : x.reread.StandsFor x := by
  rcases exists_reading finite with ⟨negative, significand, scale, reading⟩
  rcases Nat.eq_zero_or_pos significand with none | positive
  · subst none
    rw [reread_zero reading]
    refine ⟨finite, rfl, Iff.rfl, ?_⟩
    rw [sub_self, abs_zero, step_of_reading reading]
    positivity
  · rcases exists_rereadFrom reading positive with ⟨y, found, ⟨m, q, isMagnitude⟩, some, close⟩
    have again := reading_reread reading found isMagnitude
    have same : x.reread.magnitude = y.magnitude := by
      rw [magnitude_of_reading again, magnitude_of_reading isMagnitude]
    have isMagnitude := magnitude_of_reading reading
    have magnitude_pos : (0 : ℚ) < significand * 2 ^ scale :=
      mul_pos (Nat.cast_pos.mpr positive) (by positivity)
    refine ⟨isFinite_of_reading again, ?_, ?_, ?_⟩
    · rw [isNegative_of_reading again, isNegative_of_reading reading]
    · rw [same, isMagnitude]
      exact iff_of_false some.ne' magnitude_pos.ne'
    · rw [same, isMagnitude, step_of_reading reading]
      exact close

/-- The digits of a double, as they are gathered, and their power of ten are doubles themselves. -/
def FewDigits (x : Double) : Prop :=
  (gatheredDecimal (x.shortest .toEven)).digits ≤ 2 ^ 53 ∧
    (gatheredDecimal (x.shortest .toEven)).exponent.natAbs ≤ 22

instance (x : Double) : Decidable x.FewDigits := inferInstanceAs (Decidable (_ ∧ _))

/-- A double of few digits is read as itself. -/
theorem reread_eq_self (finite : x.isFinite = true) (few : x.FewDigits) : x.reread = x := by
  rcases exists_reading finite with ⟨negative, significand, scale, reading⟩
  rcases Nat.eq_zero_or_pos significand with none | positive
  · subst none
    exact reread_zero reading
  · rcases few with ⟨digits, exponent⟩
    rcases Format.isMagnitude_of_read reading with ⟨magnitude, isWord⟩
    have bounded := isWord ▸ Format.lt_infinity_of_read reading
    have surrounds := (surrounds_shortest reading positive .toEven).1
    rw [← value_gatheredDecimal] at surrounds
    have one_le : 1 ≤ (gatheredDecimal (x.shortest .toEven)).digits :=
      one_le_digits (value_gatheredDecimal (x.shortest .toEven) ▸
        shortest_pos reading positive .toEven)
    rcases exists_scale?_exact one_le digits (by omega) (by omega) magnitude bounded positive
      surrounds with ⟨y, found, isMagnitude⟩
    exact eq_of_reading reading (reading_reread reading found isMagnitude)

/-! ## Numbers of a text -/

/-- The number that stands in the text of a double. -/
def numberText (x : Double) : NumberText :=
  numberTextOfDecimal x.isNegative (x.shortest .toEven)

theorem write_numberText (finite : x.isFinite = true) :
    x.numberText.write = (Json.Number.real x).render := by
  unfold Json.Number.render
  dsimp only
  rw [numberText, write_numberTextOfDecimal, if_pos finite]

/-- Where a finite double was written, a number is read. -/
theorem readsAs_numberText (finite : x.isFinite = true) :
    x.numberText.Legal ∧ number? x.numberText = some (.real x.reread) := by
  rcases exists_reading finite with ⟨negative, significand, scale, reading⟩
  have isScaled : ∃ y, scale? (gatheredDecimal (x.shortest .toEven)).digits
      (gatheredDecimal (x.shortest .toEven)).exponent = some y ∧
      (x.shortest .toEven).digits ≤ 10 ^ 17 ∧
      ((x.shortest .toEven).digits = 0 → (x.shortest .toEven).exponent = 0) := by
    rcases Nat.eq_zero_or_pos significand with none | positive
    · subst none
      rw [shortest_zero reading]
      exact ⟨_, scale?_zero, by decide, fun _ => rfl⟩
    · rcases exists_rereadFrom reading positive with ⟨y, found, _⟩
      have some := one_le_digits (shortest_pos reading positive .toEven)
      exact ⟨y, found, (surrounds_shortest reading positive .toEven).2, by omega⟩
  rcases isScaled with ⟨y, found, few, zero⟩
  rcases readsAs_numberTextOfDecimal few zero x.isNegative with ⟨legal, value⟩
  refine ⟨legal, ?_⟩
  rw [numberText, value, found, Option.map_some, reread, found, Option.getD_some]

end SchemaRecords.Number.Double
