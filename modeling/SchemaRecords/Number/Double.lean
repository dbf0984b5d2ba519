import SchemaRecords.Number.Literal

/-!
# Double-precision numbers

A double is its 64-bit word.  Equality is equality of words, so the two zeros
differ and a value that is no number equals itself.  Every operation is defined by
exact arithmetic and one rounding.
-/

namespace SchemaRecords.Number

/-- A number in the 64-bit format. -/
structure Double where
  word : UInt64
  deriving DecidableEq, Repr

namespace Double

/-- What the word stands for. -/
def reading (x : Double) : Reading := Format.double.read x.word.toNat

/-- The double of a sign and a magnitude word. -/
def ofMagnitude (negative : Bool) (magnitude : Nat) : Double :=
  ⟨UInt64.ofNat (if negative then magnitude + Format.double.signBit else magnitude)⟩

/-- The double nearest to a ratio with a sign. -/
def ofRatio (negative : Bool) (a : Ratio) : Double :=
  ofMagnitude negative (Format.double.nearest a)

/-- The double nearest to an integer. -/
def ofInt (value : Int) : Double :=
  ofRatio (value < 0) ⟨value.natAbs, 1⟩

/-- Positive zero. -/
def zero : Double := ⟨0⟩

/-- The double that a literal is rounded to. -/
def ofLiteral : Literal → Double
  | .number negative d => ofMagnitude negative (Format.double.nearestDecimal 400 d)
  | .infinity negative => ofMagnitude negative Format.double.infinity
  | .notANumber negative => ofMagnitude negative Format.double.quietNaN

/-- The same magnitude with the other sign. -/
def negate (x : Double) : Double := ⟨x.word ^^^ 0x8000000000000000⟩

/-- Whether the value is neither infinite nor no number. -/
def isFinite (x : Double) : Bool :=
  match x.reading with
  | .finite _ _ _ => true
  | _ => false

/-- The magnitude of a finite value as a ratio; zero for all others. -/
def ratio (x : Double) : Ratio :=
  match x.reading with
  | .finite _ significand scale => Ratio.scaled significand scale
  | _ => ⟨0, 1⟩

/-- The integer that a finite value is, if it is one. -/
def integer? (x : Double) : Option Int :=
  match x.reading with
  | .finite negative significand scale =>
    let a := Ratio.scaled significand scale
    if a.numerator % a.denominator = 0 then
      let magnitude : Int := (a.numerator / a.denominator : Nat)
      some (if negative then -magnitude else magnitude)
    else none
  | _ => none

/-- The fewest digits of a finite magnitude, with no trailing zeros. -/
def shortest (x : Double) (tie : Tie) : Decimal :=
  match x.reading with
  | .finite _ significand scale =>
    if significand = 0 then ⟨0, 0⟩
    else Decimal.stripZeros 17 ((Magnitude.ofReading .double significand scale).shortest tie)
  | _ => ⟨0, 0⟩

/-- Whether the sign is a minus. -/
def isNegative (x : Double) : Bool :=
  decide (0x8000000000000000 ≤ x.word)

/-- The word of the nearest number in the 32-bit format. -/
def toSingle (x : Double) : UInt32 :=
  let magnitude := match x.reading with
    | .finite _ significand scale => Format.single.nearest (Ratio.scaled significand scale)
    | .infinite _ => Format.single.infinity
    | .notANumber => Format.single.quietNaN
  UInt32.ofNat (if x.isNegative then magnitude + Format.single.signBit else magnitude)

/-- The text of a non-negative value in full, without an exponent. -/
def display (x : Double) : List Char :=
  match x.reading with
  | .finite negative _ _ =>
    let (whole, fraction) := (x.shortest .upward).positional
    let magnitude := if fraction = [] then whole else whole ++ '.' :: fraction
    if negative then '-' :: magnitude else magnitude
  | .infinite negative => (if negative then "-inf" else "inf").toList
  | .notANumber => "NaN".toList

end Double

/-- The double that has the fewest digits of a finite number in the 32-bit format,
given by its word. -/
def Double.ofSingleDigits (word : UInt32) : Double :=
  match Format.single.read word.toNat with
  | .finite negative significand scale =>
    if significand = 0 then Double.ofMagnitude negative 0
    else
      let d := (Magnitude.ofReading .single significand scale).shortest .upward
      Double.ofMagnitude negative (Format.double.nearestDecimal 400 d)
  | .infinite negative => Double.ofMagnitude negative Format.double.infinity
  | .notANumber => Double.ofMagnitude false Format.double.quietNaN

end SchemaRecords.Number
