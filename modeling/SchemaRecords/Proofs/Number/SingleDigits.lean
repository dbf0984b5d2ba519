import SchemaRecords.Number.Double
import SchemaRecords.Proofs.Number.Rounding

/-!
# Short digits of single-precision numbers

A 32-bit number is shown by the double of its fewest digits.  These digits lie within half a step
of the number, and so the double does not go beyond the greatest finite number of 32 bits, nor below
the least positive one: what was finite stays finite when it is rounded back, and what is shown as
no zero becomes none.
-/

namespace SchemaRecords.Number

/-! ## The fewest digits -/

namespace Magnitude

theorem compareScaled_ne_gt_iff {a b : Nat} {exponent scale : Int} :
    compareScaled a exponent b scale ≠ .gt ↔ (a : ℚ) * 10 ^ exponent ≤ b * 2 ^ scale := by
  rw [← Ratio.value_decimal, ← Ratio.value_scaled, Ratio.value, Ratio.value,
    div_le_div_iff₀ (Nat.cast_pos.mpr (Nat.pow_pos (by decide)))
      (Nat.cast_pos.mpr (Nat.two_pow_pos _))]
  unfold compareScaled
  rw [Nat.compare_ne_gt]
  exact_mod_cast Iff.rfl

theorem compareScaled_ne_lt_iff {a b : Nat} {exponent scale : Int} :
    compareScaled a exponent b scale ≠ .lt ↔ (b : ℚ) * 2 ^ scale ≤ a * 10 ^ exponent := by
  rw [← Ratio.value_decimal, ← Ratio.value_scaled, Ratio.value, Ratio.value,
    div_le_div_iff₀ (Nat.cast_pos.mpr (Nat.two_pow_pos _))
      (Nat.cast_pos.mpr (Nat.pow_pos (by decide)))]
  unfold compareScaled
  rw [Nat.compare_ne_lt]
  exact_mod_cast Iff.rfl

/-- A decimal lies no more than half a step beside a magnitude, in quarters of a step. -/
structure Near (x : Magnitude) (d : Decimal) : Prop where
  low : ((4 * x.significand - 2 : Nat) : ℚ) * 2 ^ (x.scale - 2) ≤ d.digits * 10 ^ d.exponent
  high : (d.digits : ℚ) * 10 ^ d.exponent ≤ (4 * x.significand + 2 : Nat) * 2 ^ (x.scale - 2)

theorem near_of_readsBack {x : Magnitude} {d : Decimal} (reads : x.readsBack d = true) :
    x.Near d := by
  rcases Bool.and_eq_true_iff.mp reads with ⟨low, high⟩
  constructor
  · have reached : (if x.narrow then 4 * x.significand - 1 else 4 * x.significand - 2 : Nat) *
        (2 : ℚ) ^ (x.scale - 2) ≤ d.digits * 10 ^ d.exponent := by
      apply compareScaled_ne_lt_iff.mp
      intro less
      rw [less] at low
      rcases Bool.or_eq_true_iff.mp low with greater | same
      · cases greater
      · cases (Bool.and_eq_true_iff.mp same).2
    refine le_trans ?_ reached
    have wider : 4 * x.significand - 2 ≤
        if x.narrow then 4 * x.significand - 1 else 4 * x.significand - 2 := by
      split <;> omega
    have quarters : ((4 * x.significand - 2 : Nat) : ℚ) ≤
        (if x.narrow then 4 * x.significand - 1 else 4 * x.significand - 2 : Nat) :=
      Nat.cast_le.mpr wider
    gcongr
  · apply compareScaled_ne_gt_iff.mp
    intro greater
    rw [greater] at high
    rcases Bool.or_eq_true_iff.mp high with less | same
    · cases less
    · cases (Bool.and_eq_true_iff.mp same).2

theorem value_exactly (x : Magnitude) :
    ((x.exactly.digits : ℚ) * 10 ^ x.exactly.exponent) = x.significand * 2 ^ x.scale := by
  unfold exactly
  split
  · rename_i natural
    have same : x.scale = (x.scale.toNat : Int) := by omega
    generalize x.scale.toNat = power at same ⊢
    rw [same]
    simp only [Nat.cast_mul, Nat.cast_pow, Nat.cast_ofNat, zpow_natCast, zpow_zero, mul_one]
  · rename_i negative
    have same : x.scale = -((-x.scale).toNat : Int) := by omega
    generalize (-x.scale).toNat = power at same ⊢
    rw [same]
    simp only [Nat.cast_mul, Nat.cast_pow, Nat.cast_ofNat, zpow_neg, zpow_natCast]
    rw [show (10 : ℚ) = 2 * 5 by norm_num, mul_pow]
    field_simp

theorem near_exactly (x : Magnitude) : x.Near x.exactly := by
  have quarters : ((4 * x.significand : Nat) : ℚ) * 2 ^ (x.scale - 2) =
      x.significand * 2 ^ x.scale := by
    rw [zpow_sub₀ two_ne_zero]
    push_cast
    ring
  constructor
  · rw [value_exactly, ← quarters]
    have fewer : ((4 * x.significand - 2 : Nat) : ℚ) ≤ (4 * x.significand : Nat) :=
      Nat.cast_le.mpr (Nat.sub_le _ _)
    gcongr
  · rw [value_exactly, ← quarters]
    have more : ((4 * x.significand : Nat) : ℚ) ≤ (4 * x.significand + 2 : Nat) :=
      Nat.cast_le.mpr (Nat.le_add_right _ _)
    gcongr

theorem readsBack_of_withDigits? {x : Magnitude} {tie : Tie} {count : Nat} {d : Decimal}
    (found : x.withDigits? tie count = some d) : x.readsBack d = true := by
  unfold withDigits? at found
  dsimp only at found
  split at found
  · rename_i low high
    cases found
    have either (lower : Nat) (exponent : Int) :
        x.nearer tie lower exponent = lower ∨ x.nearer tie lower exponent = lower + 1 := by
      unfold nearer
      split
      · exact Or.inl rfl
      · exact Or.inr rfl
      · split
        · exact Or.inr rfl
        · omega
    rcases either _ _ with same | same
    · rw [same]
      exact low
    · rw [same]
      exact high
  · rename_i low _
    cases found
    exact low
  · rename_i _ high
    cases found
    exact high
  · cases found

/-- The fewest digits lie no more than half a step beside the magnitude. -/
theorem near_shortest (x : Magnitude) (tie : Tie) : x.Near (x.shortest tie) := by
  unfold shortest
  cases found : (List.range 17).findSome? fun fewer => x.withDigits? tie (fewer + 1) with
  | none => exact x.near_exactly
  | some d =>
    rcases List.exists_of_findSome?_eq_some found with ⟨fewer, _, here⟩
    exact near_of_readsBack (readsBack_of_withDigits? here)

end Magnitude

/-! ## Finite numbers -/

/-- The greatest finite number of 32 bits. -/
theorem isMagnitude_greatest : Format.single.IsMagnitude (2 ^ 24 - 1) 104 :=
  ⟨by decide, by decide, Or.inl (by decide)⟩

/-- The same number in 64 bits. -/
theorem isMagnitude_greatest_double : Format.double.IsMagnitude (2 ^ 53 - 2 ^ 29) 75 :=
  ⟨by decide, by decide, Or.inl (by decide)⟩

theorem greatest_eq : ((2 ^ 53 - 2 ^ 29 : Nat) : ℚ) * 2 ^ (75 : Int) =
    (2 ^ 24 - 1 : Nat) * 2 ^ (104 : Int) := by
  norm_num

/-- A double that is no greater than the greatest finite number of 32 bits is not rounded to
infinity. -/
theorem Double.toSingle_finite {x : Double} (below : x.word.toNat % Format.double.signBit ≤
      Format.double.wordOf (2 ^ 53 - 2 ^ 29) 75) :
    ∃ negative significand scale,
      Format.single.read x.toSingle.toNat = .finite negative significand scale := by
  have finite : Format.double.wordOf (2 ^ 53 - 2 ^ 29) 75 < Format.double.infinity := by decide
  have narrow : Format.single.wordOf (2 ^ 24 - 1) 104 < Format.single.infinity := by decide
  have room : Format.single.infinity < Format.single.signBit := by decide
  have isSign : Format.single.signBit = 2 ^ 31 := rfl
  rcases Format.exists_finite_of_lt (below.trans_lt finite) with
    ⟨negative, significand, scale, reading⟩
  have bounded : Format.single.nearest (Ratio.scaled significand scale) ≤
      Format.single.wordOf (2 ^ 24 - 1) 104 := by
    by_cases none : significand = 0
    · subst none
      simp [Format.nearest, Ratio.scaled]
    · apply Format.nearest_le (by decide) isMagnitude_greatest
        (Ratio.positive_scaled (Nat.pos_of_ne_zero none) scale)
      rw [Ratio.value_scaled, ← greatest_eq]
      exact Format.value_read_le isMagnitude_greatest_double below reading
  apply Format.exists_finite_of_lt
  rw [Double.toSingle, Double.reading, reading]
  dsimp only
  rw [isSign] at room ⊢
  split
  · rw [UInt32.toNat_ofNat']
    omega
  · rw [UInt32.toNat_ofNat']
    omega

/-- The greatest finite number of 32 bits is shown by a double beyond it, which is rounded back. -/
theorem toSingle_ofSingleDigits_greatest :
    Format.single.read (Double.ofSingleDigits 0x7f7fffff).toSingle.toNat =
        .finite false (2 ^ 24 - 1) 104 ∧
      Format.single.read (Double.ofSingleDigits 0xff7fffff).toSingle.toNat =
        .finite true (2 ^ 24 - 1) 104 := by
  decide +kernel

theorem Double.magnitude_ofMagnitude {negative : Bool} {magnitude : Nat}
    (small : magnitude < Format.double.signBit) :
    (Double.ofMagnitude negative magnitude).word.toNat % Format.double.signBit = magnitude := by
  have isSign : Format.double.signBit = 2 ^ 63 := rfl
  rw [Double.ofMagnitude]
  rw [isSign] at small ⊢
  split
  · rw [UInt64.toNat_ofNat']
    omega
  · rw [UInt64.toNat_ofNat']
    omega

/-- A finite word of 32 bits in figures. -/
theorem figures_of_read {word : UInt32} {negative : Bool} {significand : Nat} {scale : Int}
    (reading : Format.single.read word.toNat = .finite negative significand scale) :
    -149 ≤ scale ∧ scale ≤ 104 ∧ significand < 2 ^ 24 ∧ (2 ^ 23 ≤ significand ∨ scale = -149) ∧
      (scale + 149) * 2 ^ 23 + significand = (word.toNat % 2 ^ 31 : Nat) := by
  rcases Format.isMagnitude_of_read reading with ⟨⟨least, limited, full⟩, isWord⟩
  have finite := Format.lt_infinity_of_read reading
  simp only [Format.wordOf, Format.infinity, show Format.single.signBit = 2 ^ 31 from rfl,
    show Format.single.binade = 2 ^ 23 from rfl, show Format.single.topField = 255 from rfl,
    show Format.single.leastScale = -149 from rfl] at least limited full isWord finite
  omega

/-- Half a step above any other finite number lies below the greatest one. -/
theorem quarters_le {word : UInt32} {negative : Bool} {significand : Nat} {scale : Int}
    (reading : Format.single.read word.toNat = .finite negative significand scale)
    (others : word ≠ 0x7f7fffff ∧ word ≠ 0xff7fffff) :
    ((4 * significand + 2 : Nat) : ℚ) * 2 ^ (scale - 2) ≤ (2 ^ 24 - 1 : Nat) * 2 ^ (104 : Int) := by
  have bounds : scale ≤ 103 ∧ significand ≤ 2 ^ 24 - 1 ∨
      scale = 104 ∧ significand ≤ 2 ^ 24 - 2 := by
    have notPositive : word.toNat ≠ 0x7f7fffff := fun same =>
      others.1 (UInt32.toNat_inj.mp same)
    have notNegative : word.toNat ≠ 0xff7fffff := fun same =>
      others.2 (UInt32.toNat_inj.mp same)
    have figures := figures_of_read reading
    have small := word.toNat_lt
    omega
  rcases bounds with ⟨small, most⟩ | ⟨same, most⟩
  · calc ((4 * significand + 2 : Nat) : ℚ) * 2 ^ (scale - 2)
        ≤ (2 ^ 26 - 2 : Nat) * 2 ^ (101 : Int) := by
          have powers : (2 : ℚ) ^ (scale - 2) ≤ 2 ^ (101 : Int) :=
            zpow_le_zpow_right₀ one_le_two (by omega)
          have significands : ((4 * significand + 2 : Nat) : ℚ) ≤ (2 ^ 26 - 2 : Nat) :=
            Nat.cast_le.mpr (by omega)
          exact mul_le_mul significands powers (by positivity) (by positivity)
      _ ≤ (2 ^ 24 - 1 : Nat) * 2 ^ (104 : Int) := by norm_num
  · subst same
    calc ((4 * significand + 2 : Nat) : ℚ) * 2 ^ ((104 : Int) - 2)
        ≤ (2 ^ 26 - 6 : Nat) * 2 ^ ((104 : Int) - 2) := by
          have significands : ((4 * significand + 2 : Nat) : ℚ) ≤ (2 ^ 26 - 6 : Nat) :=
            Nat.cast_le.mpr (by omega)
          gcongr
      _ ≤ (2 ^ 24 - 1 : Nat) * 2 ^ (104 : Int) := by norm_num

/-- A decimal that is no greater than a magnitude is rounded to no greater one, unless it is beyond
everything. -/
theorem nearestDecimal_le_or_eq {significand : Nat} {scale : Int}
    (magnitude : Format.double.IsMagnitude significand scale) {beyond : Nat} {d : Decimal}
    (below : (d.digits : ℚ) * 10 ^ d.exponent ≤ significand * 2 ^ scale) :
    Format.double.nearestDecimal beyond d ≤ Format.double.wordOf significand scale ∨
      Format.double.nearestDecimal beyond d = Format.double.infinity := by
  unfold Format.nearestDecimal
  split
  · exact Or.inl (Nat.zero_le _)
  · rename_i some
    split
    · exact Or.inr rfl
    · split
      · exact Or.inl (Nat.zero_le _)
      · refine Or.inl (Format.nearest_le (by decide) magnitude
          (Ratio.positive_decimal (Nat.pos_of_ne_zero some) d.exponent) ?_)
        rw [Ratio.value_decimal]
        exact below

/-- A 32-bit number that is shown as a number stays finite when it is rounded back. -/
theorem toSingle_ofSingleDigits_finite {word : UInt32}
    (finite : (Double.ofSingleDigits word).isFinite = true) :
    ∃ negative significand scale,
      Format.single.read (Double.ofSingleDigits word).toSingle.toNat =
        .finite negative significand scale := by
  by_cases others : word ≠ 0x7f7fffff ∧ word ≠ 0xff7fffff
  · apply Double.toSingle_finite
    unfold Double.ofSingleDigits at finite ⊢
    have room : Format.double.wordOf (2 ^ 53 - 2 ^ 29) 75 < Format.double.signBit := by decide
    split at finite
    · rename_i negative significand scale reading
      split at finite
      · rename_i none
        dsimp only
        rw [if_pos none, Double.magnitude_ofMagnitude (by decide)]
        exact Nat.zero_le _
      · rename_i some
        dsimp only
        rw [if_neg some]
        have near := Magnitude.near_shortest (.ofReading .single significand scale) .upward
        generalize (Magnitude.ofReading .single significand scale).shortest .upward = d
          at near finite ⊢
        have below := (near.high.trans (quarters_le reading others)).trans greatest_eq.ge
        rcases nearestDecimal_le_or_eq isMagnitude_greatest_double below with bounded | infinite
        · rw [Double.magnitude_ofMagnitude (bounded.trans_lt room)]
          exact bounded
        · dsimp only at finite
          rw [infinite] at finite
          cases negative <;> exact absurd finite (by decide)
    · rename_i negative _
      cases negative <;> exact absurd finite (by decide)
    · exact absurd finite (by decide)
  · rcases toSingle_ofSingleDigits_greatest with ⟨positive, negative⟩
    by_cases isPositive : word = 0x7f7fffff
    · rw [isPositive]
      exact ⟨_, _, _, positive⟩
    · rw [not_not.mp fun isOther => others ⟨isPositive, isOther⟩]
      exact ⟨_, _, _, negative⟩

/-! ## Small numbers -/

/-- The word of a sign and a magnitude that is not zero is not zero. -/
theorem ofNat_magnitude_ne_zero {magnitude : Nat} (some : 0 < magnitude)
    (narrow : magnitude < Format.single.signBit) (negative : Bool) :
    UInt32.ofNat (if negative then magnitude + Format.single.signBit else magnitude) ≠ 0 := by
  have isSign : Format.single.signBit = 2 ^ 31 := rfl
  intro zero
  have same := congrArg UInt32.toNat zero
  rw [UInt32.toNat_ofNat', UInt32.toNat_zero, isSign] at same
  rw [isSign] at narrow
  split at same <;> omega

/-- A magnitude that is no less than the least positive number of 32 bits is not rounded to
zero. -/
theorem nearest_single_pos {significand : Nat} {scale : Int}
    (least : ((2 ^ 52 : Nat) : ℚ) * 2 ^ (-201 : Int) ≤ significand * 2 ^ scale) :
    0 < Format.single.nearest (Ratio.scaled significand scale) := by
  have some : 0 < significand := by
    apply Nat.pos_of_ne_zero
    intro none
    rw [none, Nat.cast_zero, zero_mul] at least
    exact absurd least (not_le.mpr (by positivity))
  have power : ((1 : Nat) : ℚ) * 2 ^ Format.single.leastScale =
      (2 ^ 52 : Nat) * 2 ^ (-201 : Int) := by
    norm_num [Format.single, Format.leastScale]
  have above := power.trans_le (least.trans_eq (Ratio.value_scaled significand scale).symm)
  have reached : Format.single.wordOf 1 Format.single.leastScale ≤ _ :=
    Format.le_nearest (by decide) ⟨le_rfl, by decide, Or.inr rfl⟩ (by decide)
      (Ratio.positive_scaled some scale) above
  exact Nat.lt_of_lt_of_le (by decide) reached

/-- The least positive number of 32 bits, in 64 bits. -/
theorem isMagnitude_least : Format.double.IsMagnitude (2 ^ 52) (-201) :=
  ⟨by decide, by decide, Or.inl (by decide)⟩

/-- A double that is no less than the least positive number of 32 bits is not rounded to zero. -/
theorem Double.toSingle_ne_zero {x : Double}
    (above : Format.double.wordOf (2 ^ 52) (-201) ≤ x.word.toNat % Format.double.signBit) :
    x.toSingle ≠ 0 := by
  have room : Format.single.infinity < Format.single.signBit := by decide
  rw [Double.toSingle, Double.reading]
  cases reading : Format.double.read x.word.toNat with
  | finite negative significand scale =>
    have least := Format.le_value_read isMagnitude_least above reading
    exact ofNat_magnitude_ne_zero (nearest_single_pos least)
      ((Format.nearest_le_infinity _ _).trans_lt room) _
  | infinite negative => exact ofNat_magnitude_ne_zero (by decide) room _
  | notANumber => exact ofNat_magnitude_ne_zero (by decide) (by decide) _

/-- What is not finite is not rounded to zero. -/
theorem Double.toSingle_ne_zero_of_not_finite {x : Double} (infinite : x.isFinite = false) :
    x.toSingle ≠ 0 := by
  apply Double.toSingle_ne_zero
  refine le_trans (by decide) (le_of_not_gt (a := Format.double.infinity) fun small => ?_)
  rcases Format.exists_finite_of_lt small with ⟨_, _, _, reading⟩
  rw [Double.isFinite, Double.reading, reading] at infinite
  cases infinite

theorem Double.ne_zero_of_not_finite {x : Double} (infinite : x.isFinite = false) : x ≠ .zero := by
  rintro rfl
  exact absurd infinite (by decide)

/-- Half a step below a positive number is still the least of them, unless it is that one. -/
theorem le_quarters {word : UInt32} {negative : Bool} {significand : Nat} {scale : Int}
    (reading : Format.single.read word.toNat = .finite negative significand scale)
    (some : significand ≠ 0) (others : word ≠ 0x00000001 ∧ word ≠ 0x80000001) :
    ((2 ^ 52 : Nat) : ℚ) * 2 ^ (-201 : Int) ≤ (4 * significand - 2 : Nat) * 2 ^ (scale - 2) := by
  have bounds : -149 ≤ scale ∧ 2 ≤ significand := by
    have notPositive : word.toNat ≠ 0x00000001 := fun same =>
      others.1 (UInt32.toNat_inj.mp same)
    have notNegative : word.toNat ≠ 0x80000001 := fun same =>
      others.2 (UInt32.toNat_inj.mp same)
    have figures := figures_of_read reading
    have small := word.toNat_lt
    omega
  rcases bounds with ⟨least, two⟩
  calc ((2 ^ 52 : Nat) : ℚ) * 2 ^ (-201 : Int) ≤ (6 : Nat) * 2 ^ (-151 : Int) := by norm_num
    _ ≤ (4 * significand - 2 : Nat) * 2 ^ (scale - 2) := by
      have powers : (2 : ℚ) ^ (-151 : Int) ≤ 2 ^ (scale - 2) :=
        zpow_le_zpow_right₀ one_le_two (by omega)
      have significands : ((6 : Nat) : ℚ) ≤ (4 * significand - 2 : Nat) :=
        Nat.cast_le.mpr (by omega)
      exact mul_le_mul significands powers (by positivity) (by positivity)

/-- A decimal that is no less than a power of two is rounded to no lesser one, unless it is beyond
everything. -/
theorem le_nearestDecimal_or_eq (beyond : Nat) {d : Decimal}
    (above : ((2 ^ 52 : Nat) : ℚ) * 2 ^ (-201 : Int) ≤ d.digits * 10 ^ d.exponent) :
    Format.double.wordOf (2 ^ 52) (-201) ≤ Format.double.nearestDecimal beyond d ∨
      Format.double.nearestDecimal beyond d = 0 := by
  unfold Format.nearestDecimal
  split
  · exact Or.inr rfl
  · rename_i some
    split
    · exact Or.inl (by decide)
    · split
      · exact Or.inr rfl
      · left
        have reached := Ratio.value_decimal d.digits d.exponent ▸ above
        exact Format.le_nearest (by decide) isMagnitude_least (by decide)
          (Ratio.positive_decimal (Nat.pos_of_ne_zero some) d.exponent) reached

theorem nearestDecimal_le_infinity {format : Format} {beyond : Nat} {d : Decimal} :
    format.nearestDecimal beyond d ≤ format.infinity := by
  unfold Format.nearestDecimal
  split
  · exact Nat.zero_le _
  · split
    · exact le_rfl
    · split
      · exact Nat.zero_le _
      · exact format.nearest_le_infinity _

theorem eq_zero_of_toSingle_ofMagnitude {negative : Bool}
    (zero : (Double.ofMagnitude negative 0).toSingle = 0) :
    Double.ofMagnitude negative 0 = .zero := by
  cases negative
  · rfl
  · exact absurd zero (by decide +kernel)

/-- The least positive numbers of 32 bits are rounded back to themselves. -/
theorem toSingle_ofSingleDigits_least :
    (Double.ofSingleDigits 0x00000001).toSingle = 0x00000001 ∧
      (Double.ofSingleDigits 0x80000001).toSingle = 0x80000001 := by
  decide +kernel

/-- Nothing but zero vanishes where the digits lie beside a number of 32 bits. -/
theorem eq_zero_of_toSingle_nearestDecimal {negative : Bool} {d : Decimal}
    (above : ((2 ^ 52 : Nat) : ℚ) * 2 ^ (-201 : Int) ≤ d.digits * 10 ^ d.exponent)
    (zero : (Double.ofMagnitude negative (Format.double.nearestDecimal 400 d)).toSingle = 0) :
    Double.ofMagnitude negative (Format.double.nearestDecimal 400 d) = .zero := by
  rcases le_nearestDecimal_or_eq 400 above with far | vanished
  · refine absurd zero (Double.toSingle_ne_zero ?_)
    rw [Double.magnitude_ofMagnitude]
    · exact far
    · exact nearestDecimal_le_infinity.trans_lt (by decide)
  · rw [vanished] at zero ⊢
    exact eq_zero_of_toSingle_ofMagnitude zero

/-- A 32-bit number is shown as zero exactly if it is rounded back to zero. -/
theorem toSingle_ofSingleDigits_eq_zero_iff {word : UInt32} :
    (Double.ofSingleDigits word).toSingle = 0 ↔ Double.ofSingleDigits word = .zero := by
  refine ⟨fun zero => ?_, fun same => by rw [same]; decide +kernel⟩
  rcases toSingle_ofSingleDigits_least with ⟨positive, negative⟩
  by_cases isPositive : word = 0x00000001
  · rw [isPositive, positive] at zero
    cases zero
  by_cases isNegative : word = 0x80000001
  · rw [isNegative, negative] at zero
    cases zero
  unfold Double.ofSingleDigits at zero ⊢
  cases reading : Format.single.read word.toNat with
  | finite negative significand scale =>
    simp only [reading] at zero ⊢
    by_cases none : significand = 0
    · rw [if_pos none] at zero ⊢
      exact eq_zero_of_toSingle_ofMagnitude zero
    · rw [if_neg none] at zero ⊢
      have near := Magnitude.near_shortest (.ofReading .single significand scale) .upward
      have above := (le_quarters reading none ⟨isPositive, isNegative⟩).trans near.low
      exact eq_zero_of_toSingle_nearestDecimal above zero
  | infinite negative =>
    simp only [reading] at zero
    cases negative <;> exact absurd zero (by decide +kernel)
  | notANumber =>
    simp only [reading] at zero
    exact absurd zero (by decide +kernel)

end SchemaRecords.Number
