/-!
# Decimal numerals

Integers in base ten.  A numeral is written without leading zeros, and the sign is
written only if it is a minus.  It is read with any number of leading zeros and an
optional plus; only the ten ASCII digits are digits.

Reading stops at the first fault.  A digit that would carry the value past the
limit is such a fault, so what follows it is not looked at any more.
-/

namespace SchemaRecords.Number.Numeral

/-- Why a text is not a numeral of the wanted range. -/
inductive Fault where
  | empty
  | invalidDigit
  | tooLarge
  | tooSmall
  deriving DecidableEq, Repr

/-- The explanation of a fault. -/
def Fault.message : Fault → String
  | .empty => "cannot parse integer from empty string"
  | .invalidDigit => "invalid digit found in string"
  | .tooLarge => "number too large to fit in target type"
  | .tooSmall => "number too small to fit in target type"

/-- The digit character of a value below ten. -/
def digit (value : Nat) : Char :=
  Char.ofNat (48 + value)

/-- The value of a decimal digit. -/
def digitValue? (c : Char) : Option Nat :=
  if '0' ≤ c ∧ c ≤ '9' then some (c.toNat - 48) else none

/-- The value of a digit in a base of at most sixteen, letters of either case
counting from ten. -/
def digitIn? (base : Nat) (c : Char) : Option Nat :=
  let value :=
    if '0' ≤ c ∧ c ≤ '9' then c.toNat - 48
    else if 'a' ≤ c ∧ c ≤ 'f' then c.toNat - 87
    else if 'A' ≤ c ∧ c ≤ 'F' then c.toNat - 55
    else base
  if value < base then some value else none

/-- The numeral of a natural number. -/
def ofNat (value : Nat) : List Char :=
  if value < 10 then [digit value] else ofNat (value / 10) ++ [digit (value % 10)]

/-- The numeral of an integer. -/
def ofInt : Int → List Char
  | .ofNat value => ofNat value
  | .negSucc value => '-' :: ofNat (value + 1)

/-- Continue reading digits in a base, up to a limit. -/
def readDigits (base limit : Nat) : (value : Nat) → List Char → Except Fault Nat
  | value, [] => .ok value
  | value, c :: rest =>
    match digitIn? base c with
    | none => .error .invalidDigit
    | some next =>
      if limit < value * base + next then .error .tooLarge
      else readDigits base limit (value * base + next) rest

/-- Read an unsigned numeral of at most `limit` in a base.  A sign alone is no
numeral. -/
def readNat (base limit : Nat) : List Char → Except Fault Nat
  | [] => .error .empty
  | ['+'] => .error .invalidDigit
  | '+' :: digits => readDigits base limit 0 digits
  | digits => readDigits base limit 0 digits

/-- Read a signed decimal numeral between `-limit - 1` and `limit`. -/
def readInt (limit : Nat) : List Char → Except Fault Int
  | ['-'] => .error .invalidDigit
  | '-' :: digits =>
    match readDigits 10 (limit + 1) 0 digits with
    | .ok magnitude => .ok (-(magnitude : Int))
    | .error .tooLarge => .error .tooSmall
    | .error fault => .error fault
  | text => (readNat 10 limit text).map fun magnitude => (magnitude : Int)

end SchemaRecords.Number.Numeral
