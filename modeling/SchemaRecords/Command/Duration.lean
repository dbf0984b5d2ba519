import SchemaRecords.Number.Numeral
import SchemaRecords.Text.Blank

/-!
# Durations

A whole number of hours, minutes or seconds; a number without a unit counts seconds.
Blanks may stand around the text and around the number.  The number of seconds has to
fit into 64 bits.
-/

namespace SchemaRecords.Command

open SchemaRecords.Number

/-- A unit of time. -/
inductive TimeUnit where
  | hours
  | minutes
  | seconds
  deriving DecidableEq, Repr

/-- How a unit is named. -/
def TimeUnit.name : TimeUnit → String
  | .hours => "hours"
  | .minutes => "minutes"
  | .seconds => "seconds"

/-- How many seconds a unit has. -/
def TimeUnit.inSeconds : TimeUnit → Nat
  | .hours => 3600
  | .minutes => 60
  | .seconds => 1

/-- The unit that a letter stands for. -/
def TimeUnit.ofLetter? : Char → Option TimeUnit
  | 'h' => some .hours
  | 'm' => some .minutes
  | 's' => some .seconds
  | _ => none

namespace Duration

/-- Why a text is no duration. -/
inductive Fault where
  | empty
  | invalidNumber (unit : Option TimeUnit) (number : String) (fault : Numeral.Fault)
  | tooLarge (text : String)
  deriving DecidableEq, Repr

/-- What a number in front of a unit is a number of. -/
def measured (unit : Option TimeUnit) : String := unit.elim "duration" TimeUnit.name

/-- The explanations of a fault, from the outermost to what is behind it. -/
def Fault.explanations : Fault → List String
  | .empty => ["Empty duration string"]
  | .invalidNumber unit number fault =>
    ["Invalid " ++ measured unit ++ " value: " ++ number, fault.message]
  | .tooLarge text => ["Duration too large: " ++ text]

/-- The greatest number of seconds. -/
def maxSeconds : Nat := 2 ^ 64 - 1

/-- The number in front of the unit, and the unit if there is one. -/
def splitUnit (text : List Char) : List Char × Option TimeUnit :=
  match text.getLast?.bind TimeUnit.ofLetter? with
  | some unit => (text.dropLast, some unit)
  | none => (text, none)

/-- The seconds of a text without blanks around it. -/
def readTrimmed (text : List Char) : Except Fault Nat :=
  if text = [] then .error .empty
  else
    let (number, unit) := splitUnit text
    match Numeral.readNat 10 maxSeconds (Text.trim number) with
    | .error fault => .error (.invalidNumber unit (String.ofList number) fault)
    | .ok count =>
      let seconds := count * unit.elim 1 TimeUnit.inSeconds
      if maxSeconds < seconds then .error (.tooLarge (String.ofList text)) else .ok seconds

/-- The seconds that a text stands for. -/
def read (text : String) : Except Fault Nat := readTrimmed (Text.trim text.toList)

end Duration
end SchemaRecords.Command
