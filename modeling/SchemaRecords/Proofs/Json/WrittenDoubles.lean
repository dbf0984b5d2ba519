import SchemaRecords.Json.Printer
import SchemaRecords.Proofs.Json.WrittenNumbers

/-!
# Written doubles as they are read

The text of a double is read as the digits that were written, and as the power of ten that they are
multiples of.  There is one exception: a whole number in full is written with a zero behind its
point, and this zero is gathered like any other digit.

No digit is dropped as long as there are at most seventeen of them.  What the digits are scaled to
is another question.
-/

namespace SchemaRecords.Number.Numeral

/-- A numeral has enough digits for its value. -/
theorem lt_pow_length_ofNat (value : Nat) : value < 10 ^ (ofNat value).length := by
  induction value using Nat.strongRecOn with
  | _ value inductionHypothesis =>
    by_cases small : value < 10
    · rw [ofNat_eq_of_lt small]
      exact small
    · have front := inductionHypothesis (value / 10) (by omega)
      rw [ofNat_eq_of_le (Nat.le_of_not_lt small), List.length_append, List.length_singleton,
        Nat.pow_succ]
      omega

end SchemaRecords.Number.Numeral

/-- A numeral denotes its value. -/
theorem SchemaRecords.Number.Literal.digitsValue_ofNat (value : Nat) :
    digitsValue (Numeral.ofNat value) = value := by
  have digitValue : ∀ digit < 10, (Numeral.digit digit).toNat - 48 = digit := by decide
  induction value using Nat.strongRecOn with
  | _ value inductionHypothesis =>
    by_cases small : value < 10
    · rw [Numeral.ofNat_eq_of_lt small, digitsValue, List.foldl_cons, List.foldl_nil,
        digitValue value small]
      omega
    · have front := inductionHypothesis (value / 10) (by omega)
      rw [digitsValue] at front
      rw [Numeral.ofNat_eq_of_le (Nat.le_of_not_lt small), digitsValue, List.foldl_append, front,
        List.foldl_cons, List.foldl_nil, digitValue (value % 10) (by omega)]
      omega

namespace SchemaRecords.Json

open SchemaRecords.Number

/-! ## Significands -/

/-- Zeros in front of the digits are worth nothing. -/
theorem gather_zeros (count : Nat) (rest : List Char) :
    gather 0 (List.replicate count '0' ++ rest) = gather 0 rest := by
  induction count with
  | zero => rfl
  | succ count inductionHypothesis =>
    rw [List.replicate_succ, List.cons_append, gather]
    exact inductionHypothesis

/-- Zeros behind the digits multiply them. -/
theorem gather_replicate {significand count : Nat}
    (inRange : significand * 10 ^ count ≤ maxSignificand) :
    gather significand (List.replicate count '0') = (significand * 10 ^ count, []) := by
  induction count generalizing significand with
  | zero => rw [Nat.pow_zero, Nat.mul_one]; rfl
  | succ count inductionHypothesis =>
    rw [Nat.pow_succ', ← Nat.mul_assoc] at inRange ⊢
    have next : significand * 10 ≤ maxSignificand :=
      Nat.le_trans (Nat.le_mul_of_pos_right _ (Nat.pow_pos (by decide))) inRange
    rw [List.replicate_succ, gather, show '0'.toNat - 48 = 0 from rfl, Nat.add_zero,
      if_neg (Nat.not_lt.mpr next)]
    exact inductionHypothesis inRange

/-- Digits are gathered one row after the other. -/
theorem gather_append {significand middle : Nat} {front : List Char}
    (gathered : gather significand front = (middle, [])) (rest : List Char) :
    gather significand (front ++ rest) = gather middle rest := by
  induction front generalizing significand with
  | nil =>
    cases gathered
    rfl
  | cons c front inductionHypothesis =>
    rw [gather] at gathered
    rw [List.cons_append, gather]
    split at gathered
    · cases gathered
    · rename_i fits
      rw [if_neg fits]
      exact inductionHypothesis gathered

/-- What is gathered in one go is gathered in two. -/
theorem exists_gather_of_append {significand value : Nat} {front rest : List Char}
    (gathered : gather significand (front ++ rest) = (value, [])) :
    ∃ middle, gather significand front = (middle, []) ∧ gather middle rest = (value, []) := by
  induction front generalizing significand with
  | nil => exact ⟨significand, rfl, gathered⟩
  | cons c front inductionHypothesis =>
    rw [List.cons_append, gather] at gathered
    rw [gather]
    split at gathered
    · cases gathered
    · rename_i fits
      rw [if_neg fits]
      exact inductionHypothesis gathered

/-- The power of ten that is written behind a number. -/
def NumberText.power (text : NumberText) : Int :=
  match text.exponent with
  | none => 0
  | some (true, digits) => -(Literal.digitsValue digits : Int)
  | some (false, digits) => Literal.digitsValue digits

/-- A number that is no integer as written is scaled from its digits. -/
theorem number?_of_gather (text : NumberText) {significand : Nat}
    (gathered : gather 0 (text.whole ++ text.fraction.getD []) = (significand, []))
    (notInteger : text.fraction ≠ none ∨ text.exponent ≠ none) :
    number? text =
      (scale? significand (text.power - (text.fraction.getD []).length)).map
        fun x => .real (if text.negative then x.negate else x) := by
  rcases exists_gather_of_append gathered with ⟨middle, first, second⟩
  have notWhole : ¬ (text.fraction = none ∧ text.exponent = none ∧ ([] : List Char) = [] ∧
      (text.negative → 1 ≤ middle ∧ middle ≤ 2 ^ 63)) := by
    rintro ⟨noFraction, noExponent, _⟩
    exact notInteger.elim (absurd noFraction) (absurd noExponent)
  have exponent : (([] : List Char).length : Int) -
      (((text.fraction.getD []).length - ([] : List Char).length : Nat) : Int) + text.power =
        text.power - (text.fraction.getD []).length := by
    rw [List.length_nil]
    omega
  unfold number?
  rw [first]
  dsimp only
  rw [if_neg notWhole, second, ← exponent]
  rfl

/-! ## Decimals -/

/-- The number that is read where a decimal was written. -/
def numberTextOfDecimal (negative : Bool) (d : Decimal) : NumberText :=
  if -5 ≤ d.leading ∧ d.leading ≤ 15 then
    ⟨negative, d.positional.1, some (if d.positional.2 = [] then ['0'] else d.positional.2), none⟩
  else
    let exponent := some (decide (d.leading < 0), Numeral.ofNat d.leading.natAbs)
    match Numeral.ofNat d.digits with
    | first :: second :: rest => ⟨negative, [first], some (second :: rest), exponent⟩
    | digits => ⟨negative, digits, none, exponent⟩

theorem write_numberTextOfDecimal (negative : Bool) (d : Decimal) :
    (numberTextOfDecimal negative d).write =
      if negative then '-' :: renderDecimal d else renderDecimal d := by
  unfold numberTextOfDecimal renderDecimal
  split
  · simp [NumberText.write, NumberText.writeMagnitude, NumberText.writeFraction,
      NumberText.writeExponent]
  · rw [scientific]
    dsimp only
    rcases Numeral.ofNat d.digits with _ | ⟨first, _ | ⟨second, rest⟩⟩
    all_goals
      simp [NumberText.write, NumberText.writeMagnitude, NumberText.writeFraction,
        NumberText.writeExponent]

/-- Digits in front of a point and behind it that are a decimal in full. -/
structure InFull (d : Decimal) (whole fraction : List Char) : Prop where
  row : DigitRow whole
  zero : whole.head? = some '0' → whole = ['0']
  digits : ∀ c ∈ fraction, (Numeral.digitValue? c).isSome = true
  places : fraction.length = (-d.exponent).toNat
  gathered : gather 0 (whole ++ fraction) = (d.digits * 10 ^ d.exponent.toNat, [])

theorem isSome_of_mem_replicate {count : Nat} {c : Char} (member : c ∈ List.replicate count '0') :
    (Numeral.digitValue? c).isSome = true := by
  rw [(List.mem_replicate.mp member).2]
  decide

/-- A decimal with no power of ten in front of the point is worth its digits. -/
theorem digits_mul_pow_of_nonpos {d : Decimal} (nonpos : d.exponent ≤ 0) :
    d.digits * 10 ^ d.exponent.toNat = d.digits := by
  rw [Int.toNat_of_nonpos nonpos, Nat.pow_zero, Nat.mul_one]

/-- A whole number in full ends with the zeros that its exponent counts. -/
theorem inFull_padded {d : Decimal} (natural : 0 ≤ d.exponent)
    (inRange : d.digits * 10 ^ d.exponent.toNat ≤ maxSignificand)
    (zero : d.digits = 0 → d.exponent = 0) :
    InFull d (Numeral.ofNat d.digits ++ List.replicate d.exponent.toNat '0') [] := by
  have row := digitRow_ofNat d.digits
  have fits : d.digits ≤ maxSignificand :=
    Nat.le_trans (Nat.le_mul_of_pos_right _ (Nat.pow_pos (by decide))) inRange
  constructor
  case row =>
    refine ⟨List.append_ne_nil_of_left_ne_nil row.nonempty _, fun c member => ?_⟩
    exact (List.mem_append.mp member).elim (row.digits c) isSome_of_mem_replicate
  case zero =>
    intro first
    rw [List.head?_append_of_ne_nil _ row.nonempty] at first
    have nothing := Numeral.eq_zero_of_head? first
    rw [zero nothing, nothing, Numeral.ofNat_eq_of_lt (by decide)]
    rfl
  case digits => exact fun _ impossible => nomatch impossible
  case places =>
    rw [List.length_nil]
    omega
  case gathered => rw [List.append_nil, gather_ofNat fits, gather_replicate inRange]

/-- The point of a decimal in full may stand between its digits. -/
theorem inFull_divided {d : Decimal} (negative : d.exponent < 0) (fits : d.digits ≤ maxSignificand)
    (zero : d.digits = 0 → d.exponent = 0) {places : Nat} (isPlaces : places = (-d.exponent).toNat)
    (inside : places < (Numeral.ofNat d.digits).length) :
    InFull d ((Numeral.ofNat d.digits).take ((Numeral.ofNat d.digits).length - places))
      ((Numeral.ofNat d.digits).drop ((Numeral.ofNat d.digits).length - places)) := by
  have row := digitRow_ofNat d.digits
  have gathered := gather_ofNat fits []
  rw [List.append_nil] at gathered
  constructor
  case row =>
    refine ⟨?_, fun c member => row.digits c (List.mem_of_mem_take member)⟩
    rw [ne_eq, List.take_eq_nil_iff]
    exact not_or.mpr ⟨by omega, row.nonempty⟩
  case zero =>
    intro first
    rw [List.head?_take, if_neg (by omega)] at first
    exact absurd (zero (Numeral.eq_zero_of_head? first)) (by omega)
  case digits => exact fun c member => row.digits c (List.mem_of_mem_drop member)
  case places =>
    rw [List.length_drop]
    omega
  case gathered =>
    rw [List.take_append_drop, gathered, gather, digits_mul_pow_of_nonpos (Int.le_of_lt negative)]

/-- Below one, zeros fill the places between the point and the digits. -/
theorem inFull_below {d : Decimal} (negative : d.exponent < 0) (fits : d.digits ≤ maxSignificand)
    {places : Nat} (isPlaces : places = (-d.exponent).toNat)
    (outside : (Numeral.ofNat d.digits).length ≤ places) :
    InFull d ['0'] (List.replicate (places - (Numeral.ofNat d.digits).length) '0' ++
      Numeral.ofNat d.digits) := by
  have row := digitRow_ofNat d.digits
  have gathered := gather_ofNat fits []
  rw [List.append_nil] at gathered
  constructor
  case row => exact ⟨List.cons_ne_nil _ _, fun c member => by
    rw [List.mem_singleton.mp member]; decide⟩
  case zero => exact fun _ => rfl
  case digits =>
    intro c member
    exact (List.mem_append.mp member).elim isSome_of_mem_replicate (row.digits c)
  case places =>
    rw [List.length_append, List.length_replicate]
    omega
  case gathered =>
    have single := gather_zeros 1
      (List.replicate (places - (Numeral.ofNat d.digits).length) '0' ++ Numeral.ofNat d.digits)
    rw [List.replicate_one] at single
    rw [single, gather_zeros, gathered, gather, digits_mul_pow_of_nonpos (Int.le_of_lt negative)]

/-- A decimal is written in full as it is. -/
theorem inFull_positional {d : Decimal}
    (inRange : d.digits * 10 ^ d.exponent.toNat ≤ maxSignificand)
    (zero : d.digits = 0 → d.exponent = 0) : InFull d d.positional.1 d.positional.2 := by
  have fits : d.digits ≤ maxSignificand :=
    Nat.le_trans (Nat.le_mul_of_pos_right _ (Nat.pow_pos (by decide))) inRange
  unfold Decimal.positional
  dsimp only
  split
  · rename_i natural
    exact inFull_padded natural inRange zero
  · rename_i negative
    split
    · rename_i inside
      exact inFull_divided (Int.not_le.mp negative) fits zero rfl inside
    · rename_i outside
      exact inFull_below (Int.not_le.mp negative) fits rfl (Nat.le_of_not_lt outside)

/-- The digits that are gathered where a decimal was written.  A whole number in full has one more
zero. -/
def gatheredDecimal (d : Decimal) : Decimal :=
  if (-5 ≤ d.leading ∧ d.leading ≤ 15) ∧ 0 ≤ d.exponent then
    ⟨d.digits * 10 ^ (d.exponent.toNat + 1), -1⟩
  else d

/-- A whole number in full that is short enough for it has room for another zero. -/
theorem digits_mul_pow_lt {d : Decimal} (short : d.leading ≤ 15) (natural : 0 ≤ d.exponent) :
    d.digits * 10 ^ (d.exponent.toNat + 1) < 10 ^ 17 := by
  unfold Decimal.leading at short
  calc d.digits * 10 ^ (d.exponent.toNat + 1)
      < 10 ^ (Numeral.ofNat d.digits).length * 10 ^ (d.exponent.toNat + 1) :=
        Nat.mul_lt_mul_of_pos_right (Numeral.lt_pow_length_ofNat d.digits)
          (Nat.pow_pos (by decide))
    _ = 10 ^ ((Numeral.ofNat d.digits).length + (d.exponent.toNat + 1)) := (Nat.pow_add _ _ _).symm
    _ ≤ 10 ^ 17 := Nat.pow_le_pow_right (by decide) (by omega)

/-- What is read of a decimal that was written: its digits, scaled, and its sign. -/
structure ReadsAs (text : NumberText) (negative : Bool) (d : Decimal) : Prop where
  legal : text.Legal
  value : number? text =
    (scale? d.digits d.exponent).map fun x => .real (if negative then x.negate else x)

/-- A decimal in full is read, with another zero behind a whole number. -/
theorem readsAs_full {d : Decimal} (full : -5 ≤ d.leading ∧ d.leading ≤ 15)
    (few : d.digits ≤ 10 ^ 17) (zero : d.digits = 0 → d.exponent = 0) (negative : Bool) :
    ReadsAs (numberTextOfDecimal negative d) negative (gatheredDecimal d) := by
  have room : 10 ^ 17 ≤ maxSignificand := by decide
  rw [numberTextOfDecimal, if_pos full]
  by_cases natural : 0 ≤ d.exponent
  · have bounded := digits_mul_pow_lt full.2 natural
    rw [Nat.pow_succ, ← Nat.mul_assoc] at bounded
    rcases inFull_positional (by omega) zero with ⟨row, alone, _, places, gathered⟩
    have nothing : d.positional.2 = [] := List.eq_nil_of_length_eq_zero (by omega)
    rw [nothing, List.append_nil] at gathered
    rw [nothing, if_pos rfl, gatheredDecimal, if_pos ⟨full, natural⟩]
    have last : gather (d.digits * 10 ^ d.exponent.toNat) (List.replicate 1 '0') =
        (d.digits * 10 ^ d.exponent.toNat * 10 ^ 1, []) := gather_replicate (by omega)
    rw [Nat.pow_one, Nat.mul_assoc, ← Nat.pow_succ] at last
    refine ⟨⟨row, alone, ?_, fun _ _ impossible => nomatch impossible⟩,
      number?_of_gather _ ((gather_append gathered ['0']).trans last)
        (Or.inl (Option.some_ne_none _))⟩
    rintro _ ⟨⟩
    exact ⟨List.cons_ne_nil _ _, fun c member => by rw [List.mem_singleton.mp member]; decide⟩
  · have noPower := digits_mul_pow_of_nonpos (Int.le_of_lt (Int.not_le.mp natural))
    rcases inFull_positional (by omega) zero with ⟨row, alone, digits, places, gathered⟩
    have nonempty : d.positional.2 ≠ [] := List.ne_nil_of_length_pos (by omega)
    rw [noPower] at gathered
    rw [if_neg nonempty, gatheredDecimal, if_neg fun both => natural both.2]
    have exponent : d.exponent = 0 - (d.positional.2.length : Int) := by omega
    refine ⟨⟨row, alone, ?_, fun _ _ impossible => nomatch impossible⟩, ?_⟩
    · rintro _ ⟨⟩
      exact ⟨nonempty, digits⟩
    · rw [exponent]
      exact number?_of_gather _ gathered (Or.inl (Option.some_ne_none _))

/-- The power of ten of an exponent that is written with its sign. -/
theorem power_signed (negative : Bool) (whole : List Char) (fraction : Option (List Char))
    (exponent : Int) :
    NumberText.power ⟨negative, whole, fraction,
      some (decide (exponent < 0), Numeral.ofNat exponent.natAbs)⟩ = exponent := by
  rw [NumberText.power]
  by_cases less : exponent < 0
  · rw [decide_eq_true less]
    dsimp only
    rw [Literal.digitsValue_ofNat]
    omega
  · rw [decide_eq_false less]
    dsimp only
    rw [Literal.digitsValue_ofNat]
    omega

/-- Digits with an exponent behind them are read as the decimal of which they are the digits. -/
theorem readsAs_exponent {d : Decimal} {whole : List Char} {fraction : Option (List Char)}
    (negative : Bool) (row : DigitRow whole) (alone : whole.head? = some '0' → whole = ['0'])
    (behind : ∀ digits, fraction = some digits → DigitRow digits)
    (gathered : gather 0 (whole ++ fraction.getD []) = (d.digits, []))
    (places : d.exponent = d.leading - (fraction.getD []).length) :
    ReadsAs ⟨negative, whole, fraction,
      some (decide (d.leading < 0), Numeral.ofNat d.leading.natAbs)⟩ negative d := by
  refine ⟨⟨row, alone, behind, ?_⟩, ?_⟩
  · rintro _ _ ⟨⟩
    exact digitRow_ofNat d.leading.natAbs
  · rw [number?_of_gather _ gathered (Or.inr (Option.some_ne_none _)), power_signed, ← places]

/-- A decimal with an exponent is read. -/
theorem readsAs_scientific {d : Decimal} (scientific : ¬ (-5 ≤ d.leading ∧ d.leading ≤ 15))
    (few : d.digits ≤ 10 ^ 17) (negative : Bool) :
    ReadsAs (numberTextOfDecimal negative d) negative (gatheredDecimal d) := by
  have room : 10 ^ 17 ≤ maxSignificand := by decide
  have row := digitRow_ofNat d.digits
  have gathered := gather_ofNat (Nat.le_trans few room) []
  have isLeading : d.leading = d.exponent + ((Numeral.ofNat d.digits).length : Int) - 1 := rfl
  rw [List.append_nil, gather] at gathered
  rw [numberTextOfDecimal, if_neg scientific, gatheredDecimal, if_neg fun both => scientific both.1]
  -- The point stands behind the first digit, if there is another one.
  generalize Numeral.ofNat d.digits = digits at *
  rcases digits with _ | ⟨first, _ | ⟨second, rest⟩⟩
  · exact absurd rfl row.nonempty
  · refine readsAs_exponent negative row (fun head => ?_)
      (fun _ given => absurd given.symm (Option.some_ne_none _)) gathered ?_
    · rw [Option.some.inj head]
    · rw [isLeading, List.length_singleton, Option.getD_none, List.length_nil]
      omega
  · have front : DigitRow [first] := ⟨List.cons_ne_nil _ _, fun c member =>
      row.digits c (List.mem_singleton.mp member ▸ List.mem_cons_self)⟩
    have behind : DigitRow (second :: rest) := ⟨List.cons_ne_nil _ _, fun c member =>
      row.digits c (List.mem_cons_of_mem _ member)⟩
    refine readsAs_exponent negative front (fun head => ?_) ?_ gathered ?_
    · rw [Option.some.inj head]
    · rintro _ ⟨⟩
      exact behind
    · rw [isLeading, List.length_cons, Option.getD_some]
      omega

/-- Where a decimal was written, its digits and its exponent are read. -/
theorem readsAs_numberTextOfDecimal {d : Decimal} (few : d.digits ≤ 10 ^ 17)
    (zero : d.digits = 0 → d.exponent = 0) (negative : Bool) :
    ReadsAs (numberTextOfDecimal negative d) negative (gatheredDecimal d) := by
  by_cases full : -5 ≤ d.leading ∧ d.leading ≤ 15
  · exact readsAs_full full few zero negative
  · exact readsAs_scientific full few negative

end SchemaRecords.Json
