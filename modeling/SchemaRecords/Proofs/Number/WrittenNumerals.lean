import SchemaRecords.Number.Numeral
import SchemaRecords.Text.Blank

/-!
# Written numerals are read back

The numeral of an integer is read as that integer by every reader whose range holds it, with
or without the blanks around it removed.
-/

namespace SchemaRecords

open Text

namespace Number.Numeral

/-! ## Digits -/

theorem digit_eq {value : Nat} (small : value < 10) :
    digit value ∈ ['0', '1', '2', '3', '4', '5', '6', '7', '8', '9'] := by
  have each : ∀ value < 10,
      digit value ∈ ['0', '1', '2', '3', '4', '5', '6', '7', '8', '9'] := by decide
  exact each value small

theorem digitIn?_digit {value : Nat} (small : value < 10) :
    digitIn? 10 (digit value) = some value := by
  have each : ∀ value < 10, digitIn? 10 (digit value) = some value := by decide
  exact each value small

theorem ofNat_eq_of_lt {value : Nat} (small : value < 10) : ofNat value = [digit value] := by
  rw [ofNat, if_pos small]

theorem ofNat_eq_of_le {value : Nat} (large : 10 ≤ value) :
    ofNat value = ofNat (value / 10) ++ [digit (value % 10)] := by
  rw [ofNat, if_neg (by omega)]

/-- A numeral consists of digits. -/
theorem mem_ofNat {value : Nat} {c : Char} (member : c ∈ ofNat value) :
    c ∈ ['0', '1', '2', '3', '4', '5', '6', '7', '8', '9'] := by
  induction value using Nat.strongRecOn with
  | _ value inductionHypothesis =>
    by_cases small : value < 10
    · rw [ofNat_eq_of_lt small] at member
      rw [List.mem_singleton.mp member]
      exact digit_eq small
    · rw [ofNat_eq_of_le (by omega)] at member
      rcases List.mem_append.mp member with front | last
      · exact inductionHypothesis (value / 10) (by omega) front
      · rw [List.mem_singleton.mp last]
        exact digit_eq (by omega)

theorem ofNat_ne_nil (value : Nat) : ofNat value ≠ [] := by
  rw [ofNat]
  split
  · exact List.cons_ne_nil _ _
  · exact List.append_ne_nil_of_right_ne_nil _ (List.cons_ne_nil _ _)

/-- Only zero has a numeral that begins with a zero. -/
theorem eq_zero_of_head? {value : Nat} (zero : (ofNat value).head? = some '0') :
    value = 0 := by
  induction value using Nat.strongRecOn with
  | _ value inductionHypothesis =>
    by_cases small : value < 10
    · have each : ∀ value < 10, digit value = '0' → value = 0 := by decide
      rw [ofNat_eq_of_lt small] at zero
      exact each value small (Option.some.inj zero)
    · have zeroFirst : (ofNat (value / 10)).head? = some '0' := by
        rw [ofNat_eq_of_le (Nat.le_of_not_lt small), List.head?_append] at zero
        cases digits : ofNat (value / 10) with
        | nil => exact absurd digits (ofNat_ne_nil _)
        | cons first rest =>
          rw [digits] at zero
          exact zero
      have front := inductionHypothesis (value / 10) (by omega) zeroFirst
      omega

/-! ## Reading -/

/-- Having read a numeral, a reader has its value. -/
theorem readDigits_ofNat {limit value : Nat} (inRange : value ≤ limit) (rest : List Char) :
    readDigits 10 limit 0 (ofNat value ++ rest) = readDigits 10 limit value rest := by
  induction value using Nat.strongRecOn generalizing rest with
  | _ value inductionHypothesis =>
    by_cases small : value < 10
    · have within : ¬ limit < 0 * 10 + value := by omega
      rw [ofNat_eq_of_lt small, List.cons_append, List.nil_append, readDigits]
      simp only [digitIn?_digit small, if_neg within]
      congr 1
      omega
    · have last : value % 10 < 10 := by omega
      have whole : value / 10 * 10 + value % 10 = value := by omega
      rw [ofNat_eq_of_le (by omega), List.append_assoc, List.cons_append, List.nil_append,
        inductionHypothesis (value / 10) (by omega) (by omega), readDigits]
      simp only [digitIn?_digit last, whole]
      rw [if_neg (by omega)]

theorem readDigits_ofNat_nil {limit value : Nat} (inRange : value ≤ limit) :
    readDigits 10 limit 0 (ofNat value) = .ok value := by
  have read := readDigits_ofNat inRange []
  rw [List.append_nil] at read
  exact read

/-- A text that does not begin with a sign is read digit by digit. -/
theorem readNat_eq_readDigits {base limit : Nat} {text : List Char} (nonempty : text ≠ [])
    (unsigned : '+' ∉ text) : readNat base limit text = readDigits base limit 0 text := by
  cases text with
  | nil => exact absurd rfl nonempty
  | cons first rest =>
    have notPlus : first ≠ '+' := fun same => unsigned (same ▸ List.mem_cons_self)
    unfold readNat
    split
    · rename_i empty
      cases empty
    · rename_i plus
      cases plus
      exact absurd rfl notPlus
    · rename_i plus
      cases plus
      exact absurd rfl notPlus
    · rfl

theorem readNat_ofNat {limit value : Nat} (inRange : value ≤ limit) :
    readNat 10 limit (ofNat value) = .ok value := by
  have unsigned : '+' ∉ ofNat value := fun member => absurd (mem_ofNat member) (by decide)
  rw [readNat_eq_readDigits (ofNat_ne_nil value) unsigned, readDigits_ofNat_nil inRange]

theorem readInt_ofInt {limit : Nat} {value : Int} (least : -(limit : Int) - 1 ≤ value)
    (greatest : value ≤ limit) : readInt limit (ofInt value) = .ok value := by
  cases value with
  | ofNat value =>
    have inRange : value ≤ limit := by
      simp only [Int.ofNat_eq_natCast] at greatest
      omega
    have unsigned : '-' ∉ ofNat value := fun member => absurd (mem_ofNat member) (by decide)
    rw [ofInt]
    unfold readInt
    split
    · rename_i minus
      exact absurd (minus ▸ List.mem_cons_self) unsigned
    · rename_i minus
      exact absurd (minus ▸ List.mem_cons_self) unsigned
    · rw [readNat_ofNat inRange]
      rfl
  | negSucc value =>
    have inRange : value + 1 ≤ limit + 1 := by omega
    have nonempty := ofNat_ne_nil (value + 1)
    rw [ofInt]
    unfold readInt
    split
    · rename_i alone
      exact absurd (List.cons.inj alone).2 nonempty
    · rename_i digits same
      rw [← (List.cons.inj same).2, readDigits_ofNat_nil inRange]
      rfl
    · rename_i notMinus
      exact absurd rfl (notMinus _)

/-! ## Readers of several ranges -/

/-- The limit of a reader decides whether digits are read, but not as what. -/
theorem readDigits_unique {base first second value one other : Nat} {text : List Char}
    (isOne : readDigits base first value text = .ok one)
    (isOther : readDigits base second value text = .ok other) : one = other := by
  induction text generalizing value with
  | nil => exact Except.ok.inj (isOne.symm.trans isOther)
  | cons c rest inductionHypothesis =>
    rw [readDigits] at isOne isOther
    cases next : digitIn? base c with
    | none =>
      rw [next] at isOne
      cases isOne
    | some digit =>
      simp only [next] at isOne isOther
      split at isOne
      · cases isOne
      · split at isOther
        · cases isOther
        · exact inductionHypothesis isOne isOther

theorem readNat_unique {base first second one other : Nat} {text : List Char}
    (isOne : readNat base first text = .ok one) (isOther : readNat base second text = .ok other) :
    one = other := by
  cases text using readNat.fun_cases with
  | case1 => cases isOne
  | case2 => cases isOne
  | case3 digits several =>
    rw [readNat.eq_3 _ _ _ several] at isOne isOther
    exact readDigits_unique isOne isOther
  | case4 text nonempty notPlus unsigned =>
    rw [readNat.eq_4 _ _ _ nonempty notPlus unsigned] at isOne isOther
    exact readDigits_unique isOne isOther

/-- A text that is read as an integer and as a natural number is read as the same. -/
theorem readInt_unique {first second other : Nat} {n : Int} {text : List Char}
    (isInteger : readInt first text = .ok n) (isNatural : readNat 10 second text = .ok other) :
    n = other := by
  unfold readInt at isInteger
  split at isInteger
  · cases isInteger
  · cases isNatural
  · cases read : readNat 10 first text with
    | error fault =>
      rw [read] at isInteger
      cases isInteger
    | ok magnitude =>
      rw [read] at isInteger
      cases isInteger
      exact congrArg Int.ofNat (readNat_unique read isNatural)

/-! ## Blanks -/

theorem isBlank_of_mem_ofInt {value : Int} {c : Char} (member : c ∈ ofInt value) :
    isBlank c = false := by
  have none : (['0', '1', '2', '3', '4', '5', '6', '7', '8', '9'].all fun c => !isBlank c) = true :=
    rfl
  have digits : ∀ c ∈ ['0', '1', '2', '3', '4', '5', '6', '7', '8', '9'], isBlank c = false :=
    fun c digit => Bool.not_eq_true' _ ▸ List.all_eq_true.mp none c digit
  cases value with
  | ofNat value => exact digits c (mem_ofNat member)
  | negSucc value =>
    rcases List.mem_cons.mp member with minus | digit
    · exact minus ▸ (by decide : isBlank '-' = false)
    · exact digits c (mem_ofNat digit)

end Number.Numeral

/-- A text without blanks has none to be removed. -/
theorem Text.trim_eq_self {text : List Char} (solid : ∀ c ∈ text, isBlank c = false) :
    trim text = text := by
  have keep : ∀ part : List Char, (∀ c ∈ part, isBlank c = false) →
      part.dropWhile isBlank = part := by
    intro part solid
    cases part with
    | nil => rfl
    | cons first rest =>
      rw [List.dropWhile_cons, solid first List.mem_cons_self]
      rfl
  rw [trim, keep text solid, keep, List.reverse_reverse]
  exact fun c member => solid c (List.mem_reverse.mp member)

theorem Text.trim_ofInt (value : Int) :
    trim (Number.Numeral.ofInt value) = Number.Numeral.ofInt value :=
  trim_eq_self fun _ member => Number.Numeral.isBlank_of_mem_ofInt member

end SchemaRecords
