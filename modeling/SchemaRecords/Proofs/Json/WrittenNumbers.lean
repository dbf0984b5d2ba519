import Mathlib.Data.List.Basic
import SchemaRecords.Json.Reader
import SchemaRecords.Number.Literal
import SchemaRecords.Proofs.Number.WrittenNumerals

/-!
# Written numbers are read as written

A number of a text has a sign, digits in front of a point and behind it, and an exponent.  Reading
separates these parts again, whatever closes the value behind them, and gathers the digits to a
significand as long as it fits into a word.
-/

namespace SchemaRecords.Json

open SchemaRecords.Number

/-! ## Parts of a number -/

/-- What may stand behind a value that was written. -/
def Closes (rest : List Char) : Prop :=
  rest = [] ∨ ∃ c behind, rest = c :: behind ∧ c ∈ [',', ']', '\x7d']

theorem Closes.of_mem {c : Char} (member : c ∈ [',', ']', '\x7d']) (behind : List Char) :
    Closes (c :: behind) :=
  Or.inr ⟨c, behind, rfl, member⟩

/-- A text begins with no digit. -/
def StopsDigits (rest : List Char) : Prop :=
  ∀ c behind, rest = c :: behind → (Numeral.digitValue? c).isSome = false

theorem Closes.stopsDigits {rest : List Char} (closes : Closes rest) : StopsDigits rest := by
  rintro c behind rfl
  rcases closes with empty | ⟨_, _, same, member⟩
  · cases empty
  · cases same
    have each : ∀ c ∈ [',', ']', '\x7d'], (Numeral.digitValue? c).isSome = false :=
      List.forall_iff_forall_mem.mp (by decide)
    exact each c member

/-- A row of digits, at least one. -/
structure DigitRow (text : List Char) : Prop where
  nonempty : text ≠ []
  digits : ∀ c ∈ text, (Numeral.digitValue? c).isSome = true

theorem digitRow_ofNat (value : Nat) : DigitRow (Numeral.ofNat value) := by
  have each : ∀ c ∈ ['0', '1', '2', '3', '4', '5', '6', '7', '8', '9'],
      (Numeral.digitValue? c).isSome = true := List.forall_iff_forall_mem.mp (by decide)
  exact ⟨Numeral.ofNat_ne_nil value, fun c member => each c (Numeral.mem_ofNat member)⟩

theorem spanDigits_append {digits rest : List Char} (row : DigitRow digits)
    (stops : StopsDigits rest) : Literal.spanDigits (digits ++ rest) = (digits, rest) := by
  have ends : rest.takeWhile (fun c => (Numeral.digitValue? c).isSome) = [] ∧
      rest.dropWhile (fun c => (Numeral.digitValue? c).isSome) = rest := by
    cases rest with
    | nil => exact ⟨rfl, rfl⟩
    | cons c behind => simp [stops c behind rfl]
  rw [Literal.spanDigits, List.takeWhile_append_of_pos row.digits,
    List.dropWhile_append_of_pos row.digits, ends.1, ends.2, List.append_nil]

/-- A character with which a number may begin. -/
def BeginsNumber (c : Char) : Prop := c = '-' ∨ (Numeral.digitValue? c).isSome = true

instance (c : Char) : Decidable (BeginsNumber c) := inferInstanceAs (Decidable (_ ∨ _))

theorem BeginsNumber.solid {c : Char} (begins : BeginsNumber c) : Tree.isSpace c = false := by
  rw [Bool.eq_false_iff]
  intro space
  simp only [Tree.isSpace, Bool.or_eq_true, decide_eq_true_eq] at space
  rcases space with ((rfl | rfl) | rfl) | rfl <;> exact absurd begins (by decide)

namespace NumberText

/-- The text of a fraction. -/
def writeFraction : Option (List Char) → List Char
  | none => []
  | some digits => '.' :: digits

/-- The text of an exponent. -/
def writeExponent : Option (Bool × List Char) → List Char
  | none => []
  | some (negative, digits) => 'e' :: (if negative then '-' else '+') :: digits

/-- The text of a magnitude. -/
def writeMagnitude (text : NumberText) : List Char :=
  text.whole ++ (writeFraction text.fraction ++ writeExponent text.exponent)

/-- The text of a number. -/
def write (text : NumberText) : List Char :=
  if text.negative then '-' :: text.writeMagnitude else text.writeMagnitude

/-- A number as it may stand in a text. -/
structure Legal (text : NumberText) : Prop where
  whole : DigitRow text.whole
  zero : text.whole.head? = some '0' → text.whole = ['0']
  fraction : ∀ digits, text.fraction = some digits → DigitRow digits
  exponent : ∀ negative digits, text.exponent = some (negative, digits) → DigitRow digits

theorem stopsDigits_writeExponent (exponent : Option (Bool × List Char)) {rest : List Char}
    (closes : Closes rest) : StopsDigits (writeExponent exponent ++ rest) := by
  cases exponent with
  | none => exact closes.stopsDigits
  | some exponent =>
    rintro c behind same
    cases same
    decide

theorem stopsDigits_writeFraction (fraction : Option (List Char)) {rest : List Char}
    (stops : StopsDigits rest) : StopsDigits (writeFraction fraction ++ rest) := by
  cases fraction with
  | none => exact stops
  | some digits =>
    rintro c behind same
    cases same
    decide

theorem readExponent_write {exponent : Option (Bool × List Char)}
    (legal : ∀ negative digits, exponent = some (negative, digits) → DigitRow digits)
    {rest : List Char} (closes : Closes rest) :
    Tree.readExponent (writeExponent exponent ++ rest) = some (exponent, rest) := by
  rcases exponent with _ | ⟨negative, digits⟩
  · rw [writeExponent, List.nil_append]
    unfold Tree.readExponent
    split
    · rfl
    · rename_i mark behind
      rcases closes with empty | ⟨_, _, same, member⟩
      · cases empty
      · cases same
        have each : ∀ c ∈ [',', ']', '\x7d'], ¬ (c = 'e' ∨ c = 'E') :=
          List.forall_iff_forall_mem.mp (by decide)
        rw [if_neg (each mark member)]
  · have row := legal negative digits rfl
    have span := spanDigits_append row closes.stopsDigits
    cases negative
    · simp [writeExponent, Tree.readExponent, span, row.nonempty]
    · simp [writeExponent, Tree.readExponent, span, row.nonempty]

theorem readFraction_write {fraction : Option (List Char)}
    (legal : ∀ digits, fraction = some digits → DigitRow digits)
    (exponent : Option (Bool × List Char)) {rest : List Char} (closes : Closes rest) :
    Tree.readFraction (writeFraction fraction ++ (writeExponent exponent ++ rest)) =
      some (fraction, writeExponent exponent ++ rest) := by
  cases fraction with
  | none =>
    cases exponent with
    | none =>
      rcases closes with rfl | ⟨_, _, rfl, member⟩
      · rfl
      · rw [writeFraction, writeExponent, List.nil_append, List.nil_append]
        unfold Tree.readFraction
        split
        · rename_i point
          cases point
          exact absurd member (by decide)
        · rfl
    | some exponent => rfl
  | some digits =>
    have row := legal digits rfl
    have stops := stopsDigits_writeExponent exponent closes
    simp [writeFraction, Tree.readFraction, spanDigits_append row stops, row.nonempty]

/-- A number is read as it was written. -/
theorem readNumber_write {text : NumberText} (legal : text.Legal) {rest : List Char}
    (closes : Closes rest) : Tree.readNumber (text.write ++ rest) = some (text, rest) := by
  rcases text with ⟨negative, whole, fraction, exponent⟩
  rcases legal with ⟨row, zero, fractionLegal, exponentLegal⟩
  dsimp only at row zero fractionLegal exponentLegal
  have stops := stopsDigits_writeFraction fraction (stopsDigits_writeExponent exponent closes)
  have span := spanDigits_append row stops
  have readFraction := readFraction_write fractionLegal exponent closes
  have readExponent := readExponent_write exponentLegal closes
  have alone : ¬ (whole = [] ∨ (whole.head? = some '0' ∧ whole ≠ ['0'])) := by
    rintro (empty | ⟨first, more⟩)
    · exact row.nonempty empty
    · exact more (zero first)
  cases negative
  · have unsigned (behind : List Char) :
        whole ++ (writeFraction fraction ++ (writeExponent exponent ++ rest)) ≠ '-' :: behind := by
      intro minus
      cases whole with
      | nil => exact row.nonempty rfl
      | cons first others =>
        cases minus
        exact absurd (row.digits '-' List.mem_cons_self) (by decide)
    simp only [write, writeMagnitude, Bool.false_eq_true, if_false, List.append_assoc]
    rw [Tree.readNumber]
    · simp only [span, if_neg alone, readFraction, readExponent, Option.bind_eq_bind,
        Option.bind_some]
      rfl
    · exact unsigned
  · simp only [write, writeMagnitude, if_true, List.append_assoc, List.cons_append,
      Tree.readNumber, span, if_neg alone, readFraction, readExponent, Option.bind_eq_bind,
      Option.bind_some]
    rfl

/-- The first character of a number is a sign or a digit. -/
theorem exists_first_write {text : NumberText} (legal : text.Legal) :
    ∃ c rest, text.write = c :: rest ∧ BeginsNumber c := by
  rcases text with ⟨negative, whole, fraction, exponent⟩
  have row := legal.whole
  cases negative
  · cases whole with
    | nil => exact absurd rfl row.nonempty
    | cons first others => exact ⟨_, _, rfl, Or.inr (row.digits first List.mem_cons_self)⟩
  · exact ⟨_, _, rfl, Or.inl rfl⟩

end NumberText

/-! ## Significands -/

/-- The digits of a numeral add up to its value. -/
theorem gather_ofNat {value : Nat} (inRange : value ≤ maxSignificand) (rest : List Char) :
    gather 0 (Numeral.ofNat value ++ rest) = gather value rest := by
  have digitValue : ∀ digit < 10, (Numeral.digit digit).toNat - 48 = digit := by decide
  induction value using Nat.strongRecOn generalizing rest with
  | _ value inductionHypothesis =>
    by_cases small : value < 10
    · have within : ¬ maxSignificand < 0 * 10 + value := by omega
      rw [Numeral.ofNat_eq_of_lt small, List.singleton_append, gather]
      simp only [digitValue value small, if_neg within]
      congr 1
      omega
    · have whole : value / 10 * 10 + value % 10 = value := by omega
      rw [Numeral.ofNat_eq_of_le (Nat.le_of_not_lt small), List.append_assoc,
        List.singleton_append, inductionHypothesis (value / 10) (by omega) (by omega), gather]
      simp only [digitValue (value % 10) (by omega), whole, if_neg (Nat.not_lt.mpr inRange)]

/-! ## Integers -/

/-- The number that is read where an integer was written. -/
def numberTextOf (n : Int) : NumberText := ⟨decide (n < 0), Numeral.ofNat n.natAbs, none, none⟩

theorem write_numberTextOf (n : Int) : (numberTextOf n).write = Numeral.ofInt n := by
  have alone : (numberTextOf n).writeMagnitude = Numeral.ofNat n.natAbs := by
    simp [NumberText.writeMagnitude, NumberText.writeFraction, NumberText.writeExponent,
      numberTextOf]
  rw [NumberText.write, alone]
  cases n with
  | ofNat value => rfl
  | negSucc value =>
    rw [numberTextOf, decide_eq_true (Int.negSucc_lt_zero value)]
    rfl

theorem legal_numberTextOf (n : Int) : (numberTextOf n).Legal where
  whole := digitRow_ofNat n.natAbs
  zero first := by
    rw [numberTextOf] at first ⊢
    rw [Numeral.eq_zero_of_head? first]
    exact Numeral.ofNat_eq_of_lt (by decide)
  fraction _ impossible := nomatch impossible
  exponent _ _ impossible := nomatch impossible

/-- An integer of 64 bits is read as it was written. -/
theorem number?_numberTextOf {n : Int} (least : -2 ^ 63 ≤ n) (greatest : n < 2 ^ 64) :
    number? (numberTextOf n) = some (.integer n) := by
  have inRange : n.natAbs ≤ maxSignificand := by
    rw [maxSignificand]
    omega
  have gathered := gather_ofNat inRange []
  rw [List.append_nil, gather] at gathered
  have legal : n < 0 → 1 ≤ n.natAbs ∧ n.natAbs ≤ 2 ^ 63 := by omega
  simp only [number?, numberTextOf, gathered, decide_eq_true_eq, true_and]
  rw [if_pos legal]
  by_cases negative : n < 0
  · rw [if_pos negative]
    congr 2
    omega
  · rw [if_neg negative]
    congr 2
    omega

end SchemaRecords.Json
